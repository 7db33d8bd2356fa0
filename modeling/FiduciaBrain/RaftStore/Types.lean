import FiduciaBrain.RaftStore.Validate

/-!
# What the store writes

The records of `src/raft_store.rs` and the serializer that turns them into bytes. The serializer is
a parameter (`Serde`): the store relies on what `Serde.Lawful` says of it and on nothing else.
-/

namespace FiduciaBrain.RaftStore

/-- The hard state beside the log. -/
structure Meta where
  currentTerm : Nat
  votedFor : Option NodeId
  commitIndex : Nat
  baseIndex : Nat
  baseTerm : Nat
  deriving DecidableEq, Repr

/-- `Meta::default()`. -/
def Meta.default : Meta where
  currentTerm := 0
  votedFor := none
  commitIndex := 0
  baseIndex := 0
  baseTerm := 0

/-- Current log file format. -/
def logFormatVersion : Nat := 1

/-- First line of the log file: the snapshot base the entries continue from. -/
structure LogHeader where
  v : Nat
  baseIndex : Nat
  baseTerm : Nat
  deriving DecidableEq, Repr

/-- The line separator, `b'\n'`. -/
def newline : UInt8 := 10

/-- The serializer: `serde_json` on the three record types. -/
structure Serde where
  encodeMeta : Meta → Bytes
  decodeMeta : Bytes → Except String Meta
  encodeHeader : LogHeader → Bytes
  decodeHeader : Bytes → Except String LogHeader
  encodeEntry : LogEntry → Bytes
  decodeEntry : Bytes → Except String LogEntry

/-- What the store relies on: a record is read back as it was written, and takes one line. -/
structure Serde.Lawful (S : Serde) : Prop where
  decode_encodeMeta : ∀ m, S.decodeMeta (S.encodeMeta m) = .ok m
  decode_encodeHeader : ∀ h, S.decodeHeader (S.encodeHeader h) = .ok h
  decode_encodeEntry : ∀ e, S.decodeEntry (S.encodeEntry e) = .ok e
  encodeMeta_ne_nil : ∀ m, S.encodeMeta m ≠ []
  encodeHeader_ne_nil : ∀ h, S.encodeHeader h ≠ []
  encodeEntry_ne_nil : ∀ e, S.encodeEntry e ≠ []
  newline_notMem_header : ∀ h, newline ∉ S.encodeHeader h
  newline_notMem_entry : ∀ e, newline ∉ S.encodeEntry e

end FiduciaBrain.RaftStore
