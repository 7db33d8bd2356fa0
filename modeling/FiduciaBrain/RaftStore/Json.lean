import FiduciaBrain.Infra.Format
import FiduciaBrain.RaftStore.Types

/-!
# The records as JSON

The serializer of the store, concretely: the text `serde_json` writes for the three records, with
the parser of exactly that text. `jsonSerde_lawful` discharges what the store assumes of its
serializer.
-/

namespace FiduciaBrain.RaftStore

open Infra

/-! ## Strings and numbers -/

/-- The UTF-8 bytes of a string. -/
def utf8 (s : String) : Bytes := s.toByteArray.data.toList

/-- The bytes a JSON string does not show as they are. -/
def escapedBytes : List UInt8 := 0x22 :: 0x5c :: (List.range 0x20).map UInt8.ofNat

def hexDigit (n : UInt8) : UInt8 := if n < 10 then 0x30 + n else 0x57 + n

/-- What stands behind the backslash. -/
def escapeOf (b : UInt8) : Bytes :=
  if b = 0x08 then utf8 "b"
  else if b = 0x09 then utf8 "t"
  else if b = 0x0a then utf8 "n"
  else if b = 0x0c then utf8 "f"
  else if b = 0x0d then utf8 "r"
  else if b < 0x20 then utf8 "u00" ++ [hexDigit (b / 16), hexDigit (b % 16)]
  else [b]

theorem escapeOf_code : ∀ a ∈ escapedBytes, ∀ b ∈ escapedBytes,
    escapeOf a <+: escapeOf b → a = b := by decide +kernel

/-- A byte behind a backslash. -/
def escapedByte : Format UInt8 {b : UInt8 // b ∈ escapedBytes} :=
  .after (utf8 "\\") (.code escapedBytes.attach (fun b => escapeOf b.val)
    (fun b => List.mem_attach _ b)
    (fun a _ b _ h => Subtype.ext (escapeOf_code a.val a.property b.val b.property h)))

/-- A byte that stands for itself. -/
def plainByte : Format UInt8 {b : UInt8 // decide (b ∉ escapedBytes) = true} := .satisfying _

/-- A byte in a string. -/
def stringByte : Format UInt8 UInt8 :=
  (plainByte.choice escapedByte (by
      rintro ⟨a, ha⟩ b s t h
      have hhead : a = 0x5c := (List.cons.inj h).1
      subst hhead
      exact absurd ha (by decide +kernel))).conv
    (fun x => some (x.elim Subtype.val Subtype.val))
    (fun b => if h : b ∈ escapedBytes then .inr ⟨b, h⟩ else .inl ⟨b, decide_eq_true h⟩)
    (by intro b; split <;> rfl)
    (by
      rintro (⟨a, ha⟩ | ⟨a, ha⟩) b h
      · cases h
        simp [of_decide_eq_true ha]
      · cases h
        simp [ha])

theorem stringByte_head (b : UInt8) :
    stringByte.print b ≠ [] ∧ (stringByte.print b).head? ≠ some 0x22 := by
  by_cases h : b ∈ escapedBytes
  · have hprint : stringByte.print b = 0x5c :: escapeOf b := by
      simp only [stringByte, Format.conv, h, dif_pos]
      rfl
    rw [hprint]
    exact ⟨by simp, by simp⟩
  · have hprint : stringByte.print b = [b] := by
      simp only [stringByte, Format.conv, h, dif_neg, not_false_iff]
      rfl
    rw [hprint]
    refine ⟨by simp, ?_⟩
    rintro heq
    cases heq
    exact h (by decide +kernel)

/-- A string in quotes. -/
def string : Format UInt8 String :=
  (Format.after (utf8 "\"") (stringByte.many 0x22 stringByte_head)).conv
    (fun bytes =>
      if h : (ByteArray.mk ⟨bytes⟩).IsValidUTF8 then some (.ofByteArray ⟨⟨bytes⟩⟩ h) else none)
    utf8
    (by
      intro s
      rw [dif_pos (show (ByteArray.mk ⟨utf8 s⟩).IsValidUTF8 from s.isValidUTF8)]
      rfl)
    (by
      intro bytes s h
      split at h
      · cases h
        rfl
      · cases h)

/-- Decimal digits, none of them a leading zero. -/
def decimal (n : Nat) : Bytes :=
  if n = 0 then utf8 "0" else (Nat.digits 10 n).reverse.map fun d => 0x30 + UInt8.ofNat d

def isDigit (b : UInt8) : Bool := 0x30 ≤ b && b ≤ 0x39

def digitsValue (ds : Bytes) : Nat := Nat.ofDigits 10 (ds.reverse.map fun d => d.toNat - 0x30)

theorem digit_spec : ∀ d < 10, isDigit (0x30 + UInt8.ofNat d) = true ∧
    (0x30 + UInt8.ofNat d).toNat - 0x30 = d := by decide

theorem isDigit_decimal (n : Nat) : ∀ b ∈ decimal n, isDigit b = true := by
  unfold decimal
  split
  · decide +kernel
  · intro b hb
    obtain ⟨d, hd, rfl⟩ := List.mem_map.mp hb
    exact (digit_spec d (Nat.digits_lt_base (by omega) (List.mem_reverse.mp hd))).1

theorem digitsValue_decimal (n : Nat) : digitsValue (decimal n) = n := by
  unfold decimal
  split
  · next h =>
    subst h
    decide +kernel
  · rw [digitsValue, ← List.map_reverse, List.reverse_reverse, List.map_map]
    have hmap : (Nat.digits 10 n).map ((fun d : UInt8 => d.toNat - 0x30) ∘ fun d : Nat =>
        0x30 + UInt8.ofNat d) = Nat.digits 10 n := by
      refine (List.map_congr_left fun d hd => ?_).trans (List.map_id _)
      exact (digit_spec d (Nat.digits_lt_base (by omega) hd)).2
    rw [hmap, Nat.ofDigits_digits]

/-- A number, and the token behind it. -/
def number (stop : UInt8) (hstop : isDigit stop = false) : Format UInt8 Nat where
  print n := decimal n ++ [stop]
  parse s :=
    let digits := s.takeWhile isDigit
    if (s.dropWhile isDigit).head? = some stop ∧ decimal (digitsValue digits) = digits then
      some (digitsValue digits, (s.dropWhile isDigit).tail)
    else none
  parse_print := by
    intro n rest
    have htake : (decimal n ++ [stop] ++ rest).takeWhile isDigit = decimal n := by
      rw [List.append_assoc, List.takeWhile_append_of_pos (isDigit_decimal n)]
      simp [hstop]
    have hdrop : (decimal n ++ [stop] ++ rest).dropWhile isDigit = stop :: rest := by
      rw [List.append_assoc, List.dropWhile_append_of_pos (isDigit_decimal n)]
      simp [hstop]
    simp only [htake, hdrop, digitsValue_decimal]
    simp
  print_parse := by
    intro s n rest h
    simp only at h
    split at h
    · next hd =>
      cases h
      obtain ⟨t, ht⟩ := List.head?_eq_some_iff.mp hd.1
      rw [hd.2, ht, List.tail_cons, List.append_assoc, List.singleton_append, ← ht,
        List.takeWhile_append_dropWhile]
    · cases h

/-! ## Optional values and lists -/

/-- `null`, or a value whose text starts otherwise. -/
def optional {α : Type} (f : Format UInt8 α) (h : ∀ a s t, utf8 "null" ++ s ≠ f.print a ++ t) :
    Format UInt8 (Option α) :=
  ((Format.text (utf8 "null")).choice f (fun _ => h)).conv
    (fun x => some (x.elim (fun _ => none) some))
    (fun o => o.elim (.inl ()) .inr)
    (by rintro (_ | a) <;> rfl)
    (by rintro (⟨⟨⟩⟩ | a) b h <;> cases h <;> rfl)

theorem string_print (s : String) : ∃ t, string.print s = utf8 "\"" ++ t := ⟨_, rfl⟩

def optionalString : Format UInt8 (Option String) :=
  optional string fun a s t => by
    obtain ⟨more, hmore⟩ := string_print a
    rw [hmore, List.append_assoc]
    exact Format.append_ne_append (by decide +kernel) (by decide +kernel) _ _

/-- The elements of an array behind the first. -/
def moreElements {α : Type} (f : Format UInt8 α) : Format UInt8 (List α) :=
  (Format.after (utf8 ",") f).many 0x5d fun a => by
    have hprint : (Format.after (utf8 ",") f).print a = utf8 "," ++ f.print a := rfl
    have hcomma : utf8 "," = [0x2c] := by decide +kernel
    rw [hprint, hcomma]
    exact ⟨by simp, by simp⟩

/-- An array of values whose texts do not start with the closing bracket. -/
def array {α : Type} (f : Format UInt8 α) (h : ∀ a s t, utf8 "]" ++ s ≠ f.print a ++ t) :
    Format UInt8 (List α) :=
  (Format.after (utf8 "[") ((Format.text (utf8 "]")).choice (f.pair (moreElements f))
      (fun _ l s t => by
        show utf8 "]" ++ s ≠ f.print l.1 ++ (moreElements f).print l.2 ++ t
        rw [List.append_assoc]
        exact h _ _ _))).conv
    (fun x => some (x.elim (fun _ => []) fun p => p.1 :: p.2))
    (fun l => match l with
      | [] => .inl ()
      | a :: rest => .inr (a, rest))
    (by rintro (_ | ⟨a, rest⟩) <;> rfl)
    (by rintro (⟨⟨⟩⟩ | ⟨a, rest⟩) b h <;> cases h <;> rfl)

def strings : Format UInt8 (List String) :=
  array string fun a s t => by
    obtain ⟨more, hmore⟩ := string_print a
    rw [hmore, List.append_assoc]
    exact Format.append_ne_append (by decide +kernel) (by decide +kernel) _ _

/-! ## Records -/

/-- A number that another field follows. -/
def numberField : Format UInt8 Nat := number 0x2c (by decide)

/-- The number in the last field. -/
def lastNumber : Format UInt8 Nat := number 0x7d (by decide)

def metaFormat : Format UInt8 Meta :=
  ((Format.after (utf8 "\x7b\"current_term\":") numberField).pair
      ((Format.after (utf8 "\"voted_for\":") optionalString).pair
        ((Format.after (utf8 ",\"commit_index\":") numberField).pair
          ((Format.after (utf8 "\"base_index\":") numberField).pair
            (Format.after (utf8 "\"base_term\":") lastNumber))))).conv
    (fun x => some ⟨x.1, x.2.1, x.2.2.1, x.2.2.2.1, x.2.2.2.2⟩)
    (fun m => (m.currentTerm, m.votedFor, m.commitIndex, m.baseIndex, m.baseTerm))
    (fun _ => rfl) (by rintro ⟨_, _, _, _, _⟩ b h; cases h; rfl)

def headerFormat : Format UInt8 LogHeader :=
  ((Format.after (utf8 "\x7b\"v\":") numberField).pair
      ((Format.after (utf8 "\"base_index\":") numberField).pair
        (Format.after (utf8 "\"base_term\":") lastNumber))).conv
    (fun x => some ⟨x.1, x.2.1, x.2.2⟩) (fun h => (h.v, h.baseIndex, h.baseTerm))
    (fun _ => rfl) (by rintro ⟨_, _, _⟩ b h; cases h; rfl)

def assignmentFormat : Format UInt8 ShardAssignment :=
  ((Format.after (utf8 "\x7b\"shard_id\":") numberField).pair
      ((Format.after (utf8 "\"replicas\":") strings).pair
        ((Format.after (utf8 ",\"preferred_leader\":") optionalString).pair
          ((Format.after (utf8 ",\"preferred_region\":") optionalString).pair
            ((Format.after (utf8 ",\"preferred_cloud_provider\":") optionalString).before
              (utf8 "\x7d")))))).conv
    (fun x => some ⟨x.1, x.2.1, x.2.2.1, x.2.2.2.1, x.2.2.2.2⟩)
    (fun a => (a.shardId, a.replicas, a.preferredLeader, a.preferredRegion,
      a.preferredCloudProvider))
    (fun _ => rfl) (by rintro ⟨_, _, _, _, _⟩ b h; cases h; rfl)

def scalePlanFormat : Format UInt8 ScalePlan :=
  ((Format.after (utf8 "\x7b\"target_nodes\":") numberField).pair
      (Format.after (utf8 "\"replication_factor\":") lastNumber)).conv
    (fun x => some ⟨x.1, x.2⟩) (fun plan => (plan.targetNodes, plan.replicationFactor))
    (fun _ => rfl) (by rintro ⟨_, _⟩ b h; cases h; rfl)

/-- A command behind the name of its variant, up to the closing brace. -/
def taggedCommand : Format UInt8 Command :=
  ((Format.after (utf8 "\x7b\"AssignShard\":") assignmentFormat).choice
      ((Format.after (utf8 "\x7b\"SetScalePlan\":") scalePlanFormat).choice
        (Format.after (utf8 "\x7b\"ForgetNode\":") string)
        (fun a b s t => by
          show utf8 _ ++ scalePlanFormat.print a ++ s ≠ utf8 _ ++ string.print b ++ t
          rw [List.append_assoc, List.append_assoc]
          exact Format.append_ne_append (by decide +kernel) (by decide +kernel) _ _))
      (fun a b s t => by
        rcases b with b | b
        · show utf8 _ ++ assignmentFormat.print a ++ s ≠ utf8 _ ++ scalePlanFormat.print b ++ t
          rw [List.append_assoc, List.append_assoc]
          exact Format.append_ne_append (by decide +kernel) (by decide +kernel) _ _
        · show utf8 _ ++ assignmentFormat.print a ++ s ≠ utf8 _ ++ string.print b ++ t
          rw [List.append_assoc, List.append_assoc]
          exact Format.append_ne_append (by decide +kernel) (by decide +kernel) _ _)).conv
    (fun x => some (x.elim .assignShard (Sum.elim .setScalePlan .forgetNode)))
    (fun c => Command.casesOn (motive := fun _ => ShardAssignment ⊕ ScalePlan ⊕ NodeId) c .inl
      (.inr ∘ .inl) (.inr ∘ .inr))
    (by rintro (_ | _ | _) <;> rfl)
    (by rintro (_ | _ | _) b h <;> cases h <;> rfl)

def commandFormat : Format UInt8 Command := taggedCommand.before (utf8 "\x7d")

theorem commandFormat_print (c : Command) : ∃ t, commandFormat.print c = utf8 "\x7b" ++ t := by
  have htag : ∃ t, taggedCommand.print c = utf8 "\x7b" ++ t := by
    cases c with
    | assignShard assignment =>
      exact ⟨utf8 "\"AssignShard\":" ++ assignmentFormat.print assignment, by
        rw [← List.append_assoc, show utf8 "\x7b" ++ utf8 "\"AssignShard\":"
          = utf8 "\x7b\"AssignShard\":" from by decide +kernel]
        rfl⟩
    | setScalePlan plan =>
      exact ⟨utf8 "\"SetScalePlan\":" ++ scalePlanFormat.print plan, by
        rw [← List.append_assoc, show utf8 "\x7b" ++ utf8 "\"SetScalePlan\":"
          = utf8 "\x7b\"SetScalePlan\":" from by decide +kernel]
        rfl⟩
    | forgetNode nodeId =>
      exact ⟨utf8 "\"ForgetNode\":" ++ string.print nodeId, by
        rw [← List.append_assoc, show utf8 "\x7b" ++ utf8 "\"ForgetNode\":"
          = utf8 "\x7b\"ForgetNode\":" from by decide +kernel]
        rfl⟩
  obtain ⟨t, ht⟩ := htag
  refine ⟨t ++ utf8 "\x7d", ?_⟩
  show taggedCommand.print c ++ utf8 "\x7d" = _
  rw [ht, List.append_assoc]

def optionalCommand : Format UInt8 (Option Command) :=
  optional commandFormat fun c s t => by
    obtain ⟨more, hmore⟩ := commandFormat_print c
    rw [hmore, List.append_assoc]
    exact Format.append_ne_append (by decide +kernel) (by decide +kernel) _ _

def entryFormat : Format UInt8 LogEntry :=
  ((Format.after (utf8 "\x7b\"term\":") numberField).pair
      ((Format.after (utf8 "\"index\":") numberField).pair
        ((Format.after (utf8 "\"command\":") optionalCommand).before (utf8 "\x7d")))).conv
    (fun x => some ⟨x.1, x.2.1, x.2.2⟩) (fun e => (e.term, e.index, e.command))
    (fun _ => rfl) (by rintro ⟨_, _, _⟩ b h; cases h; rfl)

/-! ## One line -/

theorem string_avoids : string.Avoids newline := by
  have hplain : plainByte.Avoids newline := .satisfying (by decide +kernel)
  have hescaped : escapedByte.Avoids newline :=
    .after (by decide +kernel) (.code (fun b _ h =>
      (show ∀ b ∈ escapedBytes, newline ∉ escapeOf b by decide +kernel) b.val b.property h) _ _)
  have hbyte : stringByte.Avoids newline := (hplain.choice hescaped _).conv _ _ _ _
  exact (Format.Avoids.after (by decide +kernel) (hbyte.many (by decide) _)).conv _ _ _ _

theorem number_avoids {stop : UInt8} (hstop : isDigit stop = false) (h : newline ≠ stop) :
    (number stop hstop).Avoids newline := by
  intro n hmem
  rcases List.mem_append.mp hmem with hmem | hmem
  · exact absurd (isDigit_decimal n newline hmem) (by decide)
  · exact h (List.mem_singleton.mp hmem)

theorem numberField_avoids : numberField.Avoids newline := number_avoids _ (by decide)

theorem lastNumber_avoids : lastNumber.Avoids newline := number_avoids _ (by decide)

theorem optional_avoids {α : Type} {f : Format UInt8 α}
    (h : ∀ a s t, utf8 "null" ++ s ≠ f.print a ++ t) (hf : f.Avoids newline) :
    (optional f h).Avoids newline :=
  ((Format.Avoids.text (by decide +kernel)).choice hf _).conv _ _ _ _

theorem array_avoids {α : Type} {f : Format UInt8 α}
    (h : ∀ a s t, utf8 "]" ++ s ≠ f.print a ++ t) (hf : f.Avoids newline) :
    (array f h).Avoids newline := by
  have hmore : (moreElements f).Avoids newline :=
    (Format.Avoids.after (by decide +kernel) hf).many (by decide) _
  exact (Format.Avoids.after (by decide +kernel)
    ((Format.Avoids.text (by decide +kernel)).choice (hf.pair hmore) _)).conv _ _ _ _

theorem strings_avoids : strings.Avoids newline := array_avoids _ string_avoids

theorem headerFormat_avoids : headerFormat.Avoids newline :=
  ((Format.Avoids.after (by decide +kernel) numberField_avoids).pair
    ((Format.Avoids.after (by decide +kernel) numberField_avoids).pair
      (Format.Avoids.after (by decide +kernel) lastNumber_avoids))).conv _ _ _ _

theorem commandFormat_avoids : commandFormat.Avoids newline := by
  have hopt : optionalString.Avoids newline := optional_avoids _ string_avoids
  have hassign : assignmentFormat.Avoids newline :=
    ((Format.Avoids.after (by decide +kernel) numberField_avoids).pair
      ((Format.Avoids.after (by decide +kernel) strings_avoids).pair
        ((Format.Avoids.after (by decide +kernel) hopt).pair
          ((Format.Avoids.after (by decide +kernel) hopt).pair
            (.before (by decide +kernel) (.after (by decide +kernel) hopt)))))).conv _ _ _ _
  have hplan : scalePlanFormat.Avoids newline :=
    ((Format.Avoids.after (by decide +kernel) numberField_avoids).pair
      (Format.Avoids.after (by decide +kernel) lastNumber_avoids)).conv _ _ _ _
  exact .before (by decide +kernel)
    (((Format.Avoids.after (by decide +kernel) hassign).choice
      ((Format.Avoids.after (by decide +kernel) hplan).choice
        (Format.Avoids.after (by decide +kernel) string_avoids) _) _).conv _ _ _ _)

theorem entryFormat_avoids : entryFormat.Avoids newline :=
  ((Format.Avoids.after (by decide +kernel) numberField_avoids).pair
    ((Format.Avoids.after (by decide +kernel) numberField_avoids).pair
      (.before (by decide +kernel) (.after (by decide +kernel)
        (optional_avoids _ commandFormat_avoids))))).conv _ _ _ _

/-! ## The serializer -/

/-- Read one whole record. -/
def decodeWith {α : Type} (f : Format UInt8 α) (bytes : Bytes) : Except String α :=
  match f.decode bytes with
  | some a => .ok a
  | none => .error "not a record"

theorem decodeWith_print {α : Type} (f : Format UInt8 α) (a : α) :
    decodeWith f (f.print a) = .ok a := by
  rw [decodeWith, f.decode_print]

/-- The store's serializer, as JSON. -/
def jsonSerde : Serde where
  encodeMeta := metaFormat.print
  decodeMeta := decodeWith metaFormat
  encodeHeader := headerFormat.print
  decodeHeader := decodeWith headerFormat
  encodeEntry := entryFormat.print
  decodeEntry := decodeWith entryFormat

/-- **JSON serves the store.** -/
theorem jsonSerde_lawful : jsonSerde.Lawful where
  decode_encodeMeta := decodeWith_print metaFormat
  decode_encodeHeader := decodeWith_print headerFormat
  decode_encodeEntry := decodeWith_print entryFormat
  encodeMeta_ne_nil := fun _ => Format.print_pair_after_ne_nil (by decide +kernel) _ _ _
  encodeHeader_ne_nil := fun _ => Format.print_pair_after_ne_nil (by decide +kernel) _ _ _
  encodeEntry_ne_nil := fun _ => Format.print_pair_after_ne_nil (by decide +kernel) _ _ _
  newline_notMem_header := headerFormat_avoids
  newline_notMem_entry := entryFormat_avoids

example : jsonSerde.encodeEntry ⟨12, 3, some (.forgetNode "a\nb")⟩
    = utf8 "\x7b\"term\":12,\"index\":3,\"command\":\x7b\"ForgetNode\":\"a\\nb\"\x7d\x7d" := by
  decide +kernel

end FiduciaBrain.RaftStore
