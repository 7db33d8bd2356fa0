import FiduciaBrain.RaftStore.Types

/-!
# The durable home of a member

`RaftStore::open` and `RaftStore::save` of `src/raft_store.rs`. A directory is what its three files
hold; every replacement of a file is atomic, so a save is the list of its replacements
(`saveWrites`) and a crash leaves some of the first of them done (`crashAt`).

* `readLog_encodeLog`: a log file the store wrote is read back whole
* `openStore_of_written`: opening a directory whose files the store wrote
-/

namespace FiduciaBrain.RaftStore

/-- The files under the store's directory; `none` is a missing file. -/
structure Directory where
  metaFile : Option Bytes
  logFile : Option Bytes
  snapshotFile : Option Bytes
  deriving DecidableEq, Repr

/-- A directory that has just been created. -/
def Directory.empty : Directory where
  metaFile := none
  logFile := none
  snapshotFile := none

/-! ## Writing -/

/-- The log file: a header, then one entry a line. -/
def encodeLog (S : Serde) (baseIndex baseTerm : Nat) (log : List LogEntry) : Bytes :=
  (S.encodeHeader { v := logFormatVersion, baseIndex := baseIndex, baseTerm := baseTerm }
      ++ [newline])
    ++ log.flatMap fun entry => S.encodeEntry entry ++ [newline]

def writeLog (S : Serde) (baseIndex baseTerm : Nat) (log : List LogEntry) (dir : Directory) :
    Directory :=
  { dir with logFile := some (encodeLog S baseIndex baseTerm log) }

def writeMeta (S : Serde) (m : Meta) (dir : Directory) : Directory :=
  { dir with metaFile := some (S.encodeMeta m) }

def writeSnapshot (snapshot : Bytes) (dir : Directory) : Directory :=
  { dir with snapshotFile := some snapshot }

/-- The hard state that a save records. -/
def metaOf (p : Persisted) : Meta where
  currentTerm := p.currentTerm
  votedFor := p.votedFor
  commitIndex := p.commitIndex
  baseIndex := p.baseIndex
  baseTerm := p.baseTerm

/-- The file replacements of a save, in order: the snapshot if there is one, the log, the hard
state. -/
def saveWrites (S : Serde) (p : Persisted) : List (Directory → Directory) :=
  (match p.snapshot with
    | some snapshot => [writeSnapshot snapshot]
    | none => [])
    ++ [writeLog S p.baseIndex p.baseTerm p.log, writeMeta S (metaOf p)]

/-- Durably save hard state, log and snapshot. -/
def save (S : Serde) (dir : Directory) (p : Persisted) : Except String Directory :=
  match validatePersisted p with
  | .error e => .error e
  | .ok () => .ok ((saveWrites S p).foldl (fun dir write => write dir) dir)

/-- The directory after a crash behind the first `k` file replacements of a save. -/
def crashAt (S : Serde) (dir : Directory) (p : Persisted) (k : Nat) : Directory :=
  match validatePersisted p with
  | .error _ => dir
  | .ok () => ((saveWrites S p).take k).foldl (fun dir write => write dir) dir

/-! ## Reading -/

/-- The loop over the lines of the log file, from line `lineNumber` on. -/
def readLines (S : Serde) (logBytes : Bytes) :
    Nat → Option LogHeader → List LogEntry → List Bytes →
      Except String (Option LogHeader × List LogEntry)
  | _, header, log, [] => .ok (header, log)
  | lineNumber, header, log, line :: rest =>
    let terminated := logBytes.getLast? == some newline
    let isLast := rest.isEmpty
    if line.isEmpty then
      if isLast && (terminated || logBytes.isEmpty) then
        readLines S logBytes (lineNumber + 1) header log rest
      else .error s!"Raft log contains an empty record at line {lineNumber + 1}"
    else
      match (if lineNumber = 0 then (S.decodeHeader line).toOption else none) with
      | some parsed => readLines S logBytes (lineNumber + 1) (some parsed) log rest
      | none =>
        match S.decodeEntry line with
        | .ok entry => readLines S logBytes (lineNumber + 1) header (log ++ [entry]) rest
        | .error error =>
          -- a torn trailing record
          if isLast && !terminated then .ok (header, log)
          else .error s!"invalid Raft log record at line {lineNumber + 1}: {error}"

/-- The header and the entries of a log file. -/
def readLog (S : Serde) (logBytes : Bytes) : Except String (Option LogHeader × List LogEntry) :=
  readLines S logBytes 0 none [] (logBytes.splitOn newline)

/-- The hard state on disk, and whether the file was missing. -/
def readMeta (S : Serde) (dir : Directory) : Except String (Meta × Bool) :=
  match dir.metaFile with
  | none => .ok (Meta.default, true)
  | some bytes =>
    if bytes.isEmpty then .error "Raft meta file is empty"
    else (S.decodeMeta bytes).map (·, false)

/-- The state-machine snapshot on disk. -/
def readSnapshot (dir : Directory) : Except String (Option Bytes) :=
  match dir.snapshotFile with
  | none => .ok none
  | some bytes =>
    if bytes.isEmpty then .error "Raft snapshot file is empty" else .ok (some bytes)

/-- Does this binary read the log's format? -/
def checkHeader : Option LogHeader → Except String Unit
  | none => .ok ()
  | some header =>
    if header.v ≠ logFormatVersion then
      .error s!"unsupported Raft log format v{header.v} (this binary requires v{
        logFormatVersion}; headerless files are the v0 format)"
    else .ok ()

/-- Open the store: the state recovered from disk, and the directory with the log file rewritten
from clean bytes. -/
def openStore (S : Serde) (dir : Directory) : Except String (Directory × Persisted) := do
  let (metaState, metaWasMissing) ← readMeta S dir
  let snapshot ← readSnapshot dir
  let (header, log) ← readLog S (dir.logFile.getD [])
  checkHeader header
  let (baseIndex, baseTerm) := match header with
    | some h => (h.baseIndex, h.baseTerm)
    | none => (metaState.baseIndex, metaState.baseTerm)
  if metaWasMissing && (decide (baseIndex > 0) || !log.isEmpty || snapshot.isSome) then
    throw "Raft meta is missing while durable log/snapshot state exists"
  let restored : Persisted :=
    { currentTerm := metaState.currentTerm
      votedFor := metaState.votedFor
      commitIndex := max metaState.commitIndex baseIndex
      log := log
      baseIndex := baseIndex
      baseTerm := baseTerm
      snapshot := snapshot }
  validatePersisted restored
  return (writeLog S baseIndex baseTerm log dir, restored)

/-! ## Reading back what was written -/

variable {S : Serde}

/-- The log file ends in a newline. -/
theorem getLast?_encodeLog (baseIndex baseTerm : Nat) (log : List LogEntry) :
    (encodeLog S baseIndex baseTerm log).getLast? = some newline := by
  unfold encodeLog
  cases log using List.reverseRecOn with
  | nil => simp
  | append_singleton rest entry =>
    rw [List.flatMap_append, List.flatMap_singleton, ← List.append_assoc, ← List.append_assoc]
    exact List.getLast?_concat

/-- The lines of the log file: the header, the entries, and the empty rest behind the last
newline. -/
theorem splitOn_encodeLog (hS : S.Lawful) (baseIndex baseTerm : Nat) (log : List LogEntry) :
    (encodeLog S baseIndex baseTerm log).splitOn newline
      = S.encodeHeader { v := logFormatVersion, baseIndex := baseIndex, baseTerm := baseTerm }
        :: (log.map S.encodeEntry ++ [[]]) := by
  have key : ∀ lines : List Bytes, [newline].intercalate (lines ++ [[]])
      = lines.flatMap (· ++ [newline]) := by
    intro lines
    induction lines with
    | nil => rfl
    | cons line rest ih =>
      rw [List.cons_append, List.intercalate_cons_of_ne_nil (by simp), ih, List.flatMap_cons,
        List.append_assoc]
  have hlines : encodeLog S baseIndex baseTerm log = [newline].intercalate
      (S.encodeHeader { v := logFormatVersion, baseIndex := baseIndex, baseTerm := baseTerm }
        :: (log.map S.encodeEntry ++ [[]])) := by
    rw [← List.cons_append, key, List.flatMap_cons, List.flatMap_map]
    rfl
  rw [hlines, List.splitOn_intercalate newline ?_ (by simp)]
  · intro line hline
    rcases List.mem_cons.mp hline with rfl | hline
    · exact hS.newline_notMem_header _
    rcases List.mem_append.mp hline with hline | hline
    · obtain ⟨entry, _, rfl⟩ := List.mem_map.mp hline
      exact hS.newline_notMem_entry entry
    · rw [List.mem_singleton.mp hline]
      simp

/-- An entry's line is read. -/
theorem readLines_entry (hS : S.Lawful) (logBytes : Bytes) (n : Nat) (header : Option LogHeader)
    (log : List LogEntry) (entry : LogEntry) (rest : List Bytes) :
    readLines S logBytes (n + 1) header log (S.encodeEntry entry :: rest)
      = readLines S logBytes (n + 2) header (log ++ [entry]) rest := by
  have hne : (S.encodeEntry entry).isEmpty = false := by simpa using hS.encodeEntry_ne_nil entry
  simp [readLines, hne, hS.decode_encodeEntry]

/-- The header's line is read. -/
theorem readLines_header (hS : S.Lawful) (logBytes : Bytes) (header : LogHeader)
    (rest : List Bytes) :
    readLines S logBytes 0 none [] (S.encodeHeader header :: rest)
      = readLines S logBytes 1 (some header) [] rest := by
  have hne : (S.encodeHeader header).isEmpty = false := by simpa using hS.encodeHeader_ne_nil header
  simp [readLines, hne, hS.decode_encodeHeader, Except.toOption]

/-- The loop reads a run of entry lines that ends in a newline. -/
theorem readLines_entries (hS : S.Lawful) {logBytes : Bytes}
    (hlast : logBytes.getLast? = some newline) (header : Option LogHeader) (rest : List LogEntry) :
    ∀ (n : Nat) (log : List LogEntry),
      readLines S logBytes (n + 1) header log (rest.map S.encodeEntry ++ [[]])
        = .ok (header, log ++ rest) := by
  induction rest with
  | nil =>
    intro n log
    simp [readLines, hlast]
  | cons entry rest ih =>
    intro n log
    rw [List.map_cons, List.cons_append, readLines_entry hS, ih, List.append_assoc]
    rfl

/-- **A log file the store wrote is read back whole.** -/
theorem readLog_encodeLog (hS : S.Lawful) (baseIndex baseTerm : Nat) (log : List LogEntry) :
    readLog S (encodeLog S baseIndex baseTerm log)
      = .ok (some { v := logFormatVersion, baseIndex := baseIndex, baseTerm := baseTerm }, log) := by
  rw [readLog, splitOn_encodeLog hS, readLines_header hS,
    readLines_entries hS (getLast?_encodeLog baseIndex baseTerm log)]
  rfl

/-! ## Opening what was written -/

/-- The state that a hard state, a log and a snapshot add up to. -/
def restored (m : Meta) (baseIndex baseTerm : Nat) (log : List LogEntry)
    (snapshot : Option Bytes) : Persisted where
  currentTerm := m.currentTerm
  votedFor := m.votedFor
  commitIndex := max m.commitIndex baseIndex
  log := log
  baseIndex := baseIndex
  baseTerm := baseTerm
  snapshot := snapshot

/-- Opening beside a hard state and a snapshot that can be read is a matter of the log file and of
the check. Where the file lost its header, the hard state gives the base. -/
theorem openStore_of_readLog (hS : S.Lawful) (m : Meta) {baseIndex baseTerm : Nat} {file : Bytes}
    {found : Option LogHeader} {log : List LogEntry} {snapshot : Option Bytes}
    (hlog : readLog S file = .ok (found, log))
    (hfound : found = none ∧ m.baseIndex = baseIndex ∧ m.baseTerm = baseTerm ∨
      found = some { v := logFormatVersion, baseIndex := baseIndex, baseTerm := baseTerm })
    (hsnap : snapshot ≠ some []) :
    openStore S ⟨some (S.encodeMeta m), some file, snapshot⟩
      = (validatePersisted (restored m baseIndex baseTerm log snapshot)).map fun _ =>
          (⟨some (S.encodeMeta m), some (encodeLog S baseIndex baseTerm log), snapshot⟩,
            restored m baseIndex baseTerm log snapshot) := by
  have hmeta : (S.encodeMeta m).isEmpty = false := by simpa using hS.encodeMeta_ne_nil m
  have hread : readSnapshot ⟨some (S.encodeMeta m), some file, snapshot⟩ = .ok snapshot := by
    cases snapshot with
    | none => rfl
    | some bytes =>
      have : bytes.isEmpty = false := by simpa using hsnap
      simp [readSnapshot, this]
  unfold openStore
  rw [hread]
  simp only [readMeta, hmeta, hS.decode_encodeMeta, Option.getD_some, hlog]
  rcases hfound with ⟨rfl, rfl, rfl⟩ | rfl <;>
  · cases hv : validatePersisted (restored m _ _ log snapshot) with
    | error e =>
      simp only [restored] at hv
      simp [Except.map, bind, Except.bind, checkHeader, hv]
    | ok _ =>
      simp only [restored] at hv
      simp [Except.map, bind, Except.bind, checkHeader, hv, writeLog, restored, pure, Except.pure]

/-- Opening a directory whose files the store wrote is a matter of the check alone. -/
theorem openStore_of_written (hS : S.Lawful) (m : Meta) (baseIndex baseTerm : Nat)
    (log : List LogEntry) {snapshot : Option Bytes} (hsnap : snapshot ≠ some []) :
    openStore S ⟨some (S.encodeMeta m), some (encodeLog S baseIndex baseTerm log), snapshot⟩
      = (validatePersisted (restored m baseIndex baseTerm log snapshot)).map fun _ =>
          (⟨some (S.encodeMeta m), some (encodeLog S baseIndex baseTerm log), snapshot⟩,
            restored m baseIndex baseTerm log snapshot) :=
  openStore_of_readLog hS m (readLog_encodeLog hS baseIndex baseTerm log) (Or.inr rfl) hsnap

/-- With the hard state missing, only an empty log without a base is accepted. -/
theorem openStore_of_meta_missing (hS : S.Lawful) (baseTerm : Nat) {baseIndex : Nat}
    {log : List LogEntry} {snapshot : Option Bytes}
    (h : 0 < baseIndex ∨ log ≠ [] ∨ snapshot ≠ none) :
    ∃ e, openStore S ⟨none, some (encodeLog S baseIndex baseTerm log), snapshot⟩ = .error e := by
  unfold openStore
  simp only [readMeta, Option.getD_some, readLog_encodeLog hS]
  cases hs : readSnapshot ⟨none, some (encodeLog S baseIndex baseTerm log), snapshot⟩ with
  | error e => exact ⟨e, rfl⟩
  | ok held =>
    have hheld : held = snapshot := by
      cases snapshot with
      | none => cases hs; rfl
      | some bytes =>
        simp only [readSnapshot] at hs
        split at hs <;> cases hs
        rfl
    have hany : (decide (baseIndex > 0) || !log.isEmpty || held.isSome) = true := by
      rw [hheld, Bool.or_eq_true, Bool.or_eq_true]
      rcases h with h | h | h
      · exact Or.inl (Or.inl (decide_eq_true h))
      · exact Or.inl (Or.inr (by simpa using h))
      · exact Or.inr (Option.isSome_iff_ne_none.mpr h)
    simp [bind, Except.bind, checkHeader, hany, throw, throwThe, MonadExceptOf.throw]

/-- A directory without state gives the state of a fresh member. -/
theorem openStore_of_fresh (hS : S.Lawful) {logFile : Option Bytes}
    (h : logFile = none ∨ logFile = some (encodeLog S 0 0 [])) :
    openStore S ⟨none, logFile, none⟩
      = .ok (⟨none, some (encodeLog S 0 0 []), none⟩, Persisted.default) := by
  rcases h with rfl | rfl
  · rfl
  · unfold openStore
    simp only [readMeta, readSnapshot, Option.getD_some, readLog_encodeLog hS]
    rfl

/-- An empty snapshot file is refused. -/
theorem openStore_of_snapshot_empty {dir : Directory} (h : dir.snapshotFile = some []) :
    ∃ e, openStore S dir = .error e := by
  unfold openStore
  cases hm : readMeta S dir with
  | error e => exact ⟨e, rfl⟩
  | ok m => exact ⟨_, by rw [readSnapshot, h]; rfl⟩

end FiduciaBrain.RaftStore
