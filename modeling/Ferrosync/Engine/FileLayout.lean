import Ferrosync.Engine.OptionRoundTrip
import Ferrosync.Engine.Pipeline
import Ferrosync.Engine.Sender

set_option autoImplicit false

/-! # The layout of a file on the wire

Each side decides by itself how the bytes of a transferred file are laid out: `sender_loop` from
its arguments and the negotiated protocol, `receiver_loop_pipelined` from its options and the
protocol. `file_layout_agree_iff` says when the two decisions agree, where the options of the
server are what the arguments of the client carry.
-/

namespace Ferrosync

open Interaction ByteStream

/-- What the two sides have to agree on for a file. -/
structure FileLayout where
  /-- The request carries the head of the signatures and no block. -/
  headOnly : Bool
  /-- The tokens are those of the compressed encoder. -/
  compressed : Bool
  deriving DecidableEq, Repr

/-- The layout `sender_loop` reads and writes. -/
def senderLayout (appendMode : Bool) (compress : CompressType) : FileLayout where
  headOnly := appendMode
  compressed := compress ≠ .none

def TransferOptions.needsBufferedReceive (o : TransferOptions) : Bool := o.sparse

/-- The layout `receiver_loop_pipelined` writes and reads. The buffered path knows only the plain
tokens. -/
def receiverLayout (o : TransferOptions) (compress : CompressType) : FileLayout where
  headOnly := o.append || o.appendVerify
  compressed := if o.needsBufferedReceive then false else compress ≠ .none

/-- The argument `append_mode` of `sender_loop`: `run_push` passes its option, `handle_send_impl`
passes `false`. -/
def appendMode (client : TransferOptions) (amSender : Bool) : Bool :=
  if amSender then client.append || client.appendVerify else false

def receiverOptions (client server : TransferOptions) (amSender : Bool) : TransferOptions :=
  if amSender then server else client

/-- The client comes to the file loop, and the receiver asks for files: neither `--list-only` nor a
dry run, in which no file data is sent and no layout can disagree. -/
def ExchangesFiles (client server : TransferOptions) (amSender : Bool) : Prop :=
  client.listOnly = false ∧ (receiverOptions client server amSender).dryRun = false

/-! ## Agreement -/

/-- The compressed tokens are read by the plain decoder of the buffered path, and a sending
server does not know of an append. -/
def LayoutsAgree (o : TransferOptions) (amSender : Bool) (compress : CompressType) : Prop :=
  (o.sparse = true → compress = .none) ∧
    (amSender = false → o.append = false ∧ o.appendVerify = false)

theorem receiverLayout_received (o : TransferOptions) (modulePath : List UInt8)
    (compress : CompressType) :
    receiverLayout (received o true modulePath) compress = receiverLayout o compress := by
  have happend : (received o true modulePath).append = (o.appendVerify || o.append) := rfl
  have hverify : (received o true modulePath).appendVerify = false := rfl
  have hsparse : (received o true modulePath).sparse = o.sparse := rfl
  rw [receiverLayout, receiverLayout, TransferOptions.needsBufferedReceive,
    TransferOptions.needsBufferedReceive, happend, hverify, hsparse, Bool.or_false, Bool.or_comm]

theorem compressed_iff (o : TransferOptions) (compress : CompressType) (headOnly : Bool) :
    senderLayout headOnly compress = receiverLayout o compress ↔
      headOnly = (o.append || o.appendVerify) ∧ (o.sparse = true → compress = .none) := by
  unfold senderLayout receiverLayout TransferOptions.needsBufferedReceive
  rw [FileLayout.mk.injEq]
  refine and_congr_right fun _ => ?_
  cases o.sparse with
  | false | true => simp

/-- **Agreement.** The two sides lay out the files they exchange in the same way exactly if no
file is exchanged, or neither of the two exceptions applies. -/
theorem file_layout_agree_iff (o : TransferOptions) (amSender : Bool) (compress : CompressType)
    (modulePath : List UInt8) :
    (∃ server, parseServerArgsConfig (buildServerOptionsConfig o amSender) modulePath
        (!amSender) = .ok server ∧
      (ExchangesFiles o server amSender →
        senderLayout (appendMode o amSender) compress =
          receiverLayout (receiverOptions o server amSender) compress)) ↔
      o.listOnly = true ∨ o.dryRun = true ∨ LayoutsAgree o amSender compress := by
  rw [parse_build]
  -- files are exchanged if the server does not only list them and the receiver is not dry
  have hexchanges : ExchangesFiles o (received o amSender modulePath) amSender ↔
      ¬ (o.listOnly = true ∨ o.dryRun = true) := by
    have hdry : (receiverOptions o (received o amSender modulePath) amSender).dryRun = o.dryRun := by
      cases amSender <;> rfl
    rw [ExchangesFiles, hdry, not_or, Bool.not_eq_true, Bool.not_eq_true]
  have hlayout : senderLayout (appendMode o amSender) compress =
      receiverLayout (receiverOptions o (received o amSender modulePath) amSender) compress ↔
      LayoutsAgree o amSender compress := by
    cases amSender with
    | true =>
      show senderLayout (o.append || o.appendVerify) compress =
        receiverLayout (received o true modulePath) compress ↔ _
      rw [receiverLayout_received, compressed_iff, LayoutsAgree]
      simp
    | false =>
      show senderLayout false compress = receiverLayout o compress ↔ _
      simp [compressed_iff, LayoutsAgree, and_comm, @eq_comm _ false]
  rw [← or_assoc, ← hlayout, or_iff_not_imp_left, ← hexchanges]
  constructor
  · rintro ⟨server, hserver, hagree⟩
    rwa [Except.ok.inj hserver]
  · intro hagree
    exact ⟨_, rfl, hagree⟩

/-- `--append` in a pull. -/
def appendOnly : TransferOptions := { TransferOptions.default with append := true }

/-- `--sparse --compress`. -/
def sparseCompress : TransferOptions :=
  { TransferOptions.default with sparse := true, compress := true }

/-- The receiver writes only the head, and the sending server reads signatures behind it; the
plain decoder meets compressed tokens. -/
theorem layouts_differ :
    (∃ server, parseServerArgsConfig (buildServerOptionsConfig appendOnly false) [] true =
        .ok server ∧ ExchangesFiles appendOnly server false ∧
      (senderLayout (appendMode appendOnly false) .none).headOnly = false ∧
      (receiverLayout (receiverOptions appendOnly server false) .none).headOnly = true) ∧
    ∃ server, parseServerArgsConfig (buildServerOptionsConfig sparseCompress true) [] false =
        .ok server ∧ ExchangesFiles sparseCompress server true ∧
      (senderLayout (appendMode sparseCompress true) .zlib).compressed = true ∧
      (receiverLayout (receiverOptions sparseCompress server true) .zlib).compressed = false :=
  ⟨⟨_, parse_build appendOnly false [], ⟨rfl, rfl⟩, rfl, rfl⟩,
    ⟨_, parse_build sparseCompress true [], ⟨rfl, rfl⟩, rfl, rfl⟩⟩

end Ferrosync
