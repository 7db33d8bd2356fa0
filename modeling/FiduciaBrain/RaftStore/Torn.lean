import FiduciaBrain.RaftStore.Crash

/-!
# A log file that lost its tail

What `RaftStore::open` makes of a prefix of the log file that a save wrote, beside the hard state
and the snapshot of that save.

* `readLog_take`: the entries that are whole in a prefix are read, and nothing else is
* `openIn`: opening, with what it leaves on disk when it fails
* `torn_tail`: when a prefix opens, into what, and what becomes of the file
-/

namespace FiduciaBrain.RaftStore

variable {S : Serde}

/-! ## Fragments -/

/-- What the store relies on besides: a record that breaks off is no record of either kind. -/
structure Serde.NoPartial (S : Serde) : Prop where
  header : ∀ h line, line <+: S.encodeHeader h → line ≠ S.encodeHeader h →
    (∃ e, S.decodeHeader line = .error e) ∧ ∃ e, S.decodeEntry line = .error e
  entry : ∀ e line, line <+: S.encodeEntry e → line ≠ S.encodeEntry e →
    ∃ error, S.decodeEntry line = .error error

theorem decodeWith_error {α : Type} {f : Infra.Format UInt8 α} {line : Bytes}
    (h : ∀ a, line ≠ f.print a) : ∃ e, decodeWith f line = .error e := by
  unfold decodeWith
  split
  · next a ha => exact absurd (f.decode_eq_some_iff.mp ha) (h a)
  · exact ⟨_, rfl⟩

/-- A text that breaks off is not a text of the same format. -/
theorem ne_print_of_broken {α : Type} {f : Infra.Format UInt8 α} {a : α} {line : Bytes}
    (hline : line <+: f.print a) (hne : line ≠ f.print a) (b : α) : line ≠ f.print b := by
  rintro rfl
  obtain ⟨t, ht⟩ := hline
  have hinj := f.print_append_inj (ht.trans (List.append_nil _).symm)
  exact hne (by rw [hinj.1])

/-- **Broken JSON is not JSON.** -/
theorem jsonSerde_noPartial : jsonSerde.NoPartial where
  header h line hline hne := by
    refine ⟨decodeWith_error (ne_print_of_broken hline hne), decodeWith_error fun e he => ?_⟩
    -- the names of the first fields differ
    subst he
    obtain ⟨t, ht⟩ := hline
    obtain ⟨s, hs⟩ : ∃ s, entryFormat.print e = utf8 "\x7b\"term\":" ++ s := ⟨_, List.append_assoc ..⟩
    obtain ⟨s', hs'⟩ : ∃ s', headerFormat.print h = utf8 "\x7b\"v\":" ++ s' :=
      ⟨_, List.append_assoc ..⟩
    rw [hs, List.append_assoc] at ht
    exact Infra.Format.append_ne_append (by decide +kernel) (by decide +kernel) _ _
      (ht.trans hs')
  entry e line hline hne := decodeWith_error (ne_print_of_broken hline hne)

/-! ## Reading a prefix -/

/-- The entries of a run whose records end within the first `k` bytes, where the first record
starts at `start`. -/
def completeIn (S : Serde) (k : Nat) : Nat → List LogEntry → List LogEntry
  | _, [] => []
  | start, entry :: rest =>
    let recordEnd := start + (S.encodeEntry entry).length
    if recordEnd ≤ k then entry :: completeIn S k (recordEnd + 1) rest else []

theorem completeIn_of_lt {k start : Nat} (h : k < start) (log : List LogEntry) :
    completeIn S k start log = [] := by
  cases log with
  | nil => rfl
  | cons entry rest => exact if_neg (by omega)

/-- They are the first ones. -/
theorem completeIn_isPrefix (k : Nat) (log : List LogEntry) :
    ∀ start, completeIn S k start log <+: log := by
  induction log with
  | nil => exact fun _ => List.prefix_refl []
  | cons entry rest ih =>
    intro start
    rw [completeIn]
    split
    · exact (List.prefix_cons_inj entry).mpr (ih _)
    · exact List.nil_prefix

/-- The lines of the entries. -/
def entryLines (S : Serde) (log : List LogEntry) : Bytes :=
  log.flatMap fun entry => S.encodeEntry entry ++ [newline]

theorem encodeLog_eq (baseIndex baseTerm : Nat) (log : List LogEntry) :
    encodeLog S baseIndex baseTerm log
      = S.encodeHeader { v := logFormatVersion, baseIndex := baseIndex, baseTerm := baseTerm }
        ++ newline :: entryLines S log := List.append_assoc ..

theorem entryLines_cons (entry : LogEntry) (rest : List LogEntry) :
    entryLines S (entry :: rest) = S.encodeEntry entry ++ newline :: entryLines S rest := by
  rw [entryLines, List.flatMap_cons, List.append_assoc]
  rfl

/-- A prefix that ends in a record, or goes on behind it. -/
theorem take_line (line more : Bytes) (k : Nat) :
    (k ≤ line.length ∧ (line ++ newline :: more).take k = line.take k) ∨
      (line.length < k ∧ (line ++ newline :: more).take k
        = line ++ newline :: more.take (k - (line.length + 1))) := by
  rcases Nat.lt_or_ge line.length k with h | h
  · obtain ⟨j, rfl⟩ : ∃ j, k = line.length + 1 + j := ⟨k - (line.length + 1), by omega⟩
    refine Or.inr ⟨h, ?_⟩
    rw [List.take_append, List.take_of_length_le (by omega),
      show line.length + 1 + j - line.length = j + 1 by omega, List.take_succ_cons,
      show line.length + 1 + j - (line.length + 1) = j by omega]
  · exact Or.inl ⟨h, List.take_append_of_le_length h⟩

theorem getLast?_ne_newline {line : Bytes} (h : newline ∉ line) :
    line.getLast? ≠ some newline := fun hlast => h (List.mem_of_getLast? hlast)

/-- An unterminated fragment at the end is dropped. -/
theorem readLines_torn {logBytes line : Bytes} {n : Nat} (header : Option LogHeader)
    (log : List LogEntry) (hlast : logBytes.getLast? ≠ some newline) (hne : line ≠ [])
    (hheader : n = 0 → ∃ e, S.decodeHeader line = .error e)
    (hentry : ∃ e, S.decodeEntry line = .error e) :
    readLines S logBytes n header log [line] = .ok (header, log) := by
  obtain ⟨e, he⟩ := hentry
  have hempty : line.isEmpty = false := by simpa using hne
  have hnone : (if n = 0 then (S.decodeHeader line).toOption else none) = none := by
    split
    · next hn =>
      obtain ⟨e', he'⟩ := hheader hn
      rw [he']
      rfl
    · rfl
  have hterminated : (logBytes.getLast? == some newline) = false := by simpa using hlast
  simp [readLines, hempty, hnone, he, hterminated]

/-- The loop reads the records that are whole in a prefix of the entries' lines. -/
theorem readLines_take (hS : S.Lawful) (hT : S.NoPartial) {logBytes : Bytes} {k : Nat}
    (header : Option LogHeader) (rest : List LogEntry) :
    ∀ (start n : Nat) (log : List LogEntry), start ≤ k →
      logBytes.getLast? = (newline :: (entryLines S rest).take (k - start)).getLast? →
      readLines S logBytes (n + 1) header log (((entryLines S rest).take (k - start)).splitOn newline)
        = .ok (header, log ++ completeIn S k start rest) := by
  induction rest with
  | nil =>
    intro start n log _ hlast
    have hterminated : logBytes.getLast? = some newline := by simpa [entryLines] using hlast
    simp [entryLines, completeIn, readLines, hterminated]
  | cons entry rest ih =>
    intro start n log hstart hlast
    have hline := hS.newline_notMem_entry entry
    rw [entryLines_cons] at hlast ⊢
    rcases take_line (S.encodeEntry entry) (entryLines S rest) (k - start) with
      ⟨hle, htake⟩ | ⟨hlt, htake⟩
    · rw [htake] at hlast ⊢
      have hfree : newline ∉ (S.encodeEntry entry).take (k - start) :=
        fun h => hline (List.mem_of_mem_take h)
      rw [List.splitOn_eq_singleton hfree]
      rcases Nat.lt_or_eq_of_le hle with hlt | heq
      · -- the record breaks off
        have hnil : completeIn S k start (entry :: rest) = [] := if_neg (by omega)
        rw [hnil, List.append_nil]
        cases hbroken : (S.encodeEntry entry).take (k - start) with
        | nil =>
          have hterminated : logBytes.getLast? = some newline := by simpa [hbroken] using hlast
          simp [readLines, hterminated]
        | cons b more =>
          rw [hbroken] at hlast hfree
          refine readLines_torn header log ?_ (by simp) (by simp) (hT.entry entry _ ?_ ?_)
          · rw [hlast, List.getLast?_cons_cons]
            exact getLast?_ne_newline hfree
          · exact hbroken ▸ List.take_prefix _ _
          · intro heq
            have hlen := congrArg List.length (hbroken.trans heq)
            rw [List.length_take] at hlen
            omega
      · -- the record is whole and nothing stands behind it
        have hwhole : completeIn S k start (entry :: rest) = [entry] := by
          rw [completeIn, if_pos (by omega), completeIn_of_lt (by omega)]
        rw [List.take_of_length_le (by omega), readLines_entry hS, hwhole]
        rfl
    · -- the record is whole and the next line has begun
      have hwhole : completeIn S k start (entry :: rest)
          = entry :: completeIn S k (start + (S.encodeEntry entry).length + 1) rest :=
        if_pos (by omega)
      rw [htake] at hlast ⊢
      rw [show k - start - ((S.encodeEntry entry).length + 1)
        = k - (start + (S.encodeEntry entry).length + 1) by omega] at hlast ⊢
      rw [List.splitOn_append_cons_self_of_not_mem hline, readLines_entry hS,
        ih _ (n + 1) _ (by omega) ?_, hwhole, List.append_assoc]
      · rfl
      · rw [hlast, ← List.cons_append, List.getLast?_append_of_ne_nil _ (by simp)]

/-- **A prefix of the log file is read up to its last whole record.** -/
theorem readLog_take (hS : S.Lawful) (hT : S.NoPartial) (baseIndex baseTerm k : Nat)
    (log : List LogEntry) :
    let header : LogHeader := { v := logFormatVersion, baseIndex := baseIndex, baseTerm := baseTerm }
    ∃ found, (found = none ∨ found = some header) ∧
      readLog S ((encodeLog S baseIndex baseTerm log).take k)
        = .ok (found, completeIn S k ((S.encodeHeader header).length + 1) log) := by
  intro header
  have hline := hS.newline_notMem_header header
  rw [encodeLog_eq, readLog]
  rcases take_line (S.encodeHeader header) (entryLines S log) k with ⟨hle, htake⟩ | ⟨hlt, htake⟩
  · rw [htake, completeIn_of_lt (by omega)]
    have hfree : newline ∉ (S.encodeHeader header).take k := fun h =>
      hline (List.mem_of_mem_take h)
    rw [List.splitOn_eq_singleton hfree]
    rcases Nat.lt_or_eq_of_le hle with hlt | heq
    · refine ⟨none, Or.inl rfl, ?_⟩
      cases hbroken : (S.encodeHeader header).take k with
      | nil => simp [readLines]
      | cons b more =>
        rw [hbroken] at hfree
        have hpart := hT.header header (b :: more) (hbroken ▸ List.take_prefix _ _) (by
          intro heq
          have hlen := congrArg List.length (hbroken.trans heq)
          rw [List.length_take] at hlen
          omega)
        exact readLines_torn none [] (getLast?_ne_newline hfree) (by simp) (fun _ => hpart.1)
          hpart.2
    · refine ⟨some header, Or.inr rfl, ?_⟩
      rw [List.take_of_length_le (by omega), readLines_header hS]
      rfl
  · refine ⟨some header, Or.inr rfl, ?_⟩
    rw [htake, List.splitOn_append_cons_self_of_not_mem hline, readLines_header hS,
      readLines_take hS hT (some header) log _ 0 [] (by omega)]
    · rfl
    · rw [List.getLast?_append_of_ne_nil _ (by simp)]

/-! ## Opening -/

/-- `RaftStore::open`, with its effects on the directory: it reads, checks, and writes last. -/
def openIn (S : Serde) : ExceptT String (StateM Directory) Persisted := do
  let dir ← get
  let (metaState, metaWasMissing) ← ofExcept (readMeta S dir)
  let snapshot ← ofExcept (readSnapshot dir)
  let (header, log) ← ofExcept (readLog S (dir.logFile.getD []))
  ofExcept (checkHeader header)
  let (baseIndex, baseTerm) := match header with
    | some h => (h.baseIndex, h.baseTerm)
    | none => (metaState.baseIndex, metaState.baseTerm)
  if metaWasMissing && (decide (baseIndex > 0) || !log.isEmpty || snapshot.isSome) then
    throw "Raft meta is missing while durable log/snapshot state exists"
  let restored : Persisted :=
    { currentTerm := metaState.currentTerm
      votedFor := metaState.votedFor
      commitIndex := max metaState.commitIndex baseIndex
      log := log
      baseIndex := baseIndex
      baseTerm := baseTerm
      snapshot := snapshot }
  ofExcept (validatePersisted restored)
  modify (writeLog S baseIndex baseTerm log)
  return restored

/-- A computation does in a directory what the result says, and nothing if that is a failure. -/
def Settles (dir : Directory) (m : ExceptT String (StateM Directory) Persisted)
    (result : Except String (Directory × Persisted)) : Prop :=
  m.run.run dir =
    match result with
    | .ok (dir', p) => (.ok p, dir')
    | .error e => (.error e, dir)

/-- A step that may fail, on both sides. -/
theorem Settles.bind {α : Type} {dir : Directory} (x : Except String α)
    {f : α → ExceptT String (StateM Directory) Persisted}
    {g : α → Except String (Directory × Persisted)} (h : ∀ a, Settles dir (f a) (g a)) :
    Settles dir (ofExcept x >>= f) (x >>= g) := by
  cases x with
  | ok a => exact h a
  | error e => rfl

/-- **A failed opening leaves the directory alone**, a successful one is `openStore`. -/
theorem openIn_settles (dir : Directory) : Settles dir (openIn S) (openStore S dir) := by
  show Settles dir (ofExcept (readMeta S dir) >>= _) _
  refine .bind _ ?_
  rintro ⟨metaState, metaWasMissing⟩
  refine .bind _ fun snapshot => .bind _ ?_
  rintro ⟨header, log⟩
  refine .bind _ fun _ => ?_
  cases header <;>
  · dsimp only
    split
    · rfl
    · exact .bind _ fun _ => rfl

theorem openIn_of_ok {dir dir' : Directory} {p : Persisted} (h : openStore S dir = .ok (dir', p)) :
    (openIn S).run.run dir = (.ok p, dir') := by
  have hsettles := openIn_settles (S := S) dir
  rw [h] at hsettles
  exact hsettles

theorem openIn_of_error {dir : Directory} {e : String} (h : openStore S dir = .error e) :
    (openIn S).run.run dir = (.error e, dir) := by
  have hsettles := openIn_settles (S := S) dir
  rw [h] at hsettles
  exact hsettles

/-! ## The tail -/

/-- The entries of a saved state whose records are whole in the first `k` bytes of its log file. -/
def completeEntries (S : Serde) (k : Nat) (p : Persisted) : List LogEntry :=
  completeIn S k
    ((S.encodeHeader { v := logFormatVersion, baseIndex := p.baseIndex
                       baseTerm := p.baseTerm }).length + 1) p.log

/-- **When a valid state stays valid without its last entries.** -/
theorem validatePersisted_cut {p : Persisted} {log : List LogEntry} (hp : validatePersisted p = .ok ())
    (hlog : log <+: p.log) :
    validatePersisted { p with log := log } = .ok () ↔
      p.commitIndex ≤ (log.getLast?.map LogEntry.index).getD p.baseIndex := by
  obtain ⟨hv, hmax⟩ := validatePersisted_ok_iff.mp hp
  have hcut : LogValid p.currentTerm p.baseIndex p.baseTerm log := by
    rw [List.prefix_iff_eq_take.mp hlog]
    exact hv.log.take _
  rw [validatePersisted_ok_iff, hcut.getLast_index]
  constructor
  · rintro ⟨hv', _⟩
    exact hv'.commit_le
  · intro hcommit
    refine ⟨{ hv with log := hcut, commit_le := hcommit }, fun hne => ?_⟩
    have hlen := hlog.length_le
    have := hmax fun hnil => hne (List.prefix_nil.mp (hnil ▸ hlog))
    show p.baseIndex + log.length ≤ u64Max
    omega

theorem restored_metaOf {p : Persisted} (hp : validatePersisted p = .ok ()) (log : List LogEntry) :
    restored (metaOf p) p.baseIndex p.baseTerm log p.snapshot = { p with log := log } := by
  have hbase := (validatePersisted_ok_iff.mp hp).1.base_le
  simp only [restored, metaOf, Nat.max_eq_left hbase]

/-- Opening beside a prefix of the log file: the whole records are checked, and written back. -/
theorem openStore_torn (hS : S.Lawful) (hT : S.NoPartial) {p : Persisted}
    (hp : validatePersisted p = .ok ()) (hsnap : p.snapshot ≠ some []) (k : Nat) :
    openStore S ⟨some (S.encodeMeta (metaOf p)),
        some ((encodeLog S p.baseIndex p.baseTerm p.log).take k), p.snapshot⟩
      = (validatePersisted { p with log := completeEntries S k p }).map fun _ =>
          (⟨some (S.encodeMeta (metaOf p)),
              some (encodeLog S p.baseIndex p.baseTerm (completeEntries S k p)), p.snapshot⟩,
            { p with log := completeEntries S k p }) := by
  obtain ⟨found, hfound, hread⟩ := readLog_take hS hT p.baseIndex p.baseTerm k p.log
  have hbase : found = none ∧ (metaOf p).baseIndex = p.baseIndex ∧ (metaOf p).baseTerm = p.baseTerm ∨
      found = some { v := logFormatVersion, baseIndex := p.baseIndex, baseTerm := p.baseTerm } :=
    hfound.imp (fun h => ⟨h, rfl, rfl⟩) id
  rw [openStore_of_readLog hS (metaOf p) hread hbase hsnap, restored_metaOf hp]
  rfl

/-- The whole records open again by themselves. -/
theorem openStore_complete (hS : S.Lawful) {p : Persisted} (hp : validatePersisted p = .ok ())
    (hsnap : p.snapshot ≠ some []) {log : List LogEntry}
    (hlog : validatePersisted { p with log := log } = .ok ()) :
    openStore S ⟨some (S.encodeMeta (metaOf p)),
        some (encodeLog S p.baseIndex p.baseTerm log), p.snapshot⟩
      = .ok (⟨some (S.encodeMeta (metaOf p)),
          some (encodeLog S p.baseIndex p.baseTerm log), p.snapshot⟩, { p with log := log }) := by
  rw [openStore_of_written hS (metaOf p) p.baseIndex p.baseTerm log hsnap, restored_metaOf hp, hlog]
  rfl

/-- **A torn log file.** Beside the hard state and the snapshot of the one save into a fresh
directory, a prefix of the log file opens exactly if its whole records reach the commit point. What
opens is the saved state with those entries, and stays on disk; what does not is left alone. -/
theorem torn_tail (hS : S.Lawful) (hT : S.NoPartial) {fresh dir : Directory} {empty p : Persisted}
    (hfresh : (openIn S).run.run Directory.empty = (.ok empty, fresh))
    (hsave : save S fresh p = .ok dir) (hsnap : p.snapshot ≠ some []) {file bytes : Bytes}
    (hfile : dir.logFile = some file) (hbytes : bytes <+: file) :
    let log := completeEntries S bytes.length p
    let opened := (openIn S).run.run { dir with logFile := some bytes }
    ((∃ q, opened.1 = .ok q) ↔
      p.commitIndex ≤ (log.getLast?.map LogEntry.index).getD p.baseIndex) ∧
    (∀ q, opened.1 = .ok q → q = { p with log := log } ∧
      opened.2.logFile = some (encodeLog S p.baseIndex p.baseTerm log) ∧
      (openIn S).run.run opened.2 = (.ok q, opened.2)) ∧
    ∀ e, opened.1 = .error e → opened.2 = { dir with logFile := some bytes } := by
  intro log opened
  have hp : validatePersisted p = .ok () := by
    cases hp : validatePersisted p with
    | ok _ => rfl
    | error e =>
      rw [save, hp] at hsave
      cases hsave
  have hempty := openIn_of_ok (openStore_of_fresh hS (Or.inl rfl))
  obtain ⟨_, rfl⟩ := Prod.mk.inj (hfresh.symm.trans hempty)
  rw [save_eq hp, afterMeta, afterLog_eq .fresh (fun h => absurd rfl h)] at hsave
  cases hsave
  cases hfile
  have hopen := openStore_torn hS hT hp hsnap bytes.length
  rw [← List.prefix_iff_eq_take.mp hbytes] at hopen
  have hkept : log <+: p.log := completeIn_isPrefix _ _ _
  have hcut := validatePersisted_cut hp hkept
  cases hv : validatePersisted { p with log := log } with
  | error e =>
    have hfail : opened = (.error e, ⟨some (S.encodeMeta (metaOf p)), some bytes, p.snapshot⟩) := by
      rw [hv] at hopen
      exact openIn_of_error hopen
    rw [hfail, ← hcut, hv]
    refine ⟨iff_of_false ?_ ?_, ?_, fun _ _ => rfl⟩
    · rintro ⟨q, hq⟩
      cases hq
    · intro hok
      cases hok
    · intro q hq
      cases hq
  | ok _ =>
    have hdone : opened = (.ok { p with log := log }, ⟨some (S.encodeMeta (metaOf p)),
        some (encodeLog S p.baseIndex p.baseTerm log), p.snapshot⟩) := by
      rw [hv] at hopen
      exact openIn_of_ok hopen
    have hagain := openIn_of_ok (openStore_complete hS hp hsnap hv)
    rw [hdone]
    refine ⟨iff_of_true ⟨_, rfl⟩ (hcut.mp hv), ?_, ?_⟩
    · intro q hq
      cases hq
      exact ⟨rfl, rfl, hagain⟩
    · intro e he
      cases he

/-- Two entries, the first of them committed. -/
def tornState : Persisted where
  currentTerm := 1
  votedFor := none
  commitIndex := 1
  log := [⟨1, 1, none⟩, ⟨1, 2, none⟩]
  baseIndex := 0
  baseTerm := 0
  snapshot := none

/-- Its log file, with the last record broken off. -/
def tornFile : Bytes := (encodeLog jsonSerde 0 0 tornState.log).take 80

theorem torn_tail_tornState :
    ∃ dir, (openIn jsonSerde).run.run
        ⟨some (jsonSerde.encodeMeta (metaOf tornState)), some tornFile, none⟩
      = (.ok { tornState with log := [⟨1, 1, none⟩] }, dir) := by
  have hp : validatePersisted tornState = .ok () := by decide
  have hlog : completeEntries jsonSerde tornFile.length tornState = [⟨1, 1, none⟩] := by
    decide +kernel
  have hcut : tornFile <+: encodeLog jsonSerde 0 0 tornState.log := List.take_prefix 80 _
  obtain ⟨hiff, hstate, _⟩ := torn_tail jsonSerde_lawful jsonSerde_noPartial
    (openIn_of_ok (openStore_of_fresh jsonSerde_lawful (Or.inl rfl))) (save_eq hp) (by decide)
    rfl hcut
  rw [hlog] at hiff hstate
  obtain ⟨q, hq⟩ := hiff.mpr (by decide)
  exact ⟨_, Prod.ext (hq.trans (congrArg Except.ok (hstate q hq).1)) rfl⟩

end FiduciaBrain.RaftStore
