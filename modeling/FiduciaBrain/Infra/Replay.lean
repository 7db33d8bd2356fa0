import Mathlib.Data.List.Infix

/-!
# Replaying a log

A log of commands is folded into a state, and the log only grows.

* `replay_eq_of_counted_eq`: the number of writes taken in names the state
* `Level`: what can be said of a state that has taken in the log up to some position; it survives
  the next command and the growth of the log
* `Level.exact`: the state is the replay of the log up to that position
* `Slots`: the state is read slot by slot, and a command overwrites some slots and leaves the others
* `SlotLevel`: a level that is a condition on each slot by itself, so that a state whose slots were
  read at different times still satisfies it
* `SlotLevel.fresh`: each slot is as it was at that position or at a later one
* `SlotLevel.rejoins`: replaying the rest of the log leads to the replay of the whole log
-/

namespace Infra

universe u v w

variable {σ : Type u} {γ : Type v}

/-- The state after the first `n` commands of a log. -/
def replay (apply : σ → γ → σ) (s₀ : σ) (h : List γ) (n : Nat) : σ := (h.take n).foldl apply s₀

section replay

variable {apply : σ → γ → σ} {s₀ : σ} {h h' : List γ}

@[simp] theorem replay_zero : replay apply s₀ h 0 = s₀ := rfl

theorem replay_succ {n : Nat} {c : γ} (hc : h[n]? = some c) :
    replay apply s₀ h (n + 1) = apply (replay apply s₀ h n) c := by
  rw [replay, List.take_add_one, hc, List.foldl_append]
  rfl

theorem replay_extend {n : Nat} (hh : h <+: h') (hn : n ≤ h.length) :
    replay apply s₀ h' n = replay apply s₀ h n := by
  obtain ⟨more, rfl⟩ := hh
  rw [replay, List.take_append_of_le_length hn]
  rfl

theorem foldl_eq_replay_drop (n : Nat) :
    h.foldl apply s₀ = (h.drop n).foldl apply (replay apply s₀ h n) := by
  rw [replay, ← List.foldl_append, List.take_append_drop]

end replay

/-! ## Counting writes -/

/-- How many of the first `n` commands of a log pass a test. -/
def counted (p : γ → Bool) (h : List γ) (n : Nat) : Nat := (h.take n).countP p

section counted

variable {apply : σ → γ → σ} {s₀ : σ} {p : γ → Bool} {h h' : List γ} {n m : Nat}

@[simp] theorem counted_zero : counted p h 0 = 0 := rfl

theorem counted_succ {c : γ} (hc : h[n]? = some c) :
    counted p h (n + 1) = counted p h n + if p c then 1 else 0 := by
  rw [counted, List.take_add_one, hc, List.countP_append]
  exact congrArg _ List.countP_singleton

theorem counted_extend (hh : h <+: h') (hn : n ≤ h.length) : counted p h' n = counted p h n := by
  obtain ⟨more, rfl⟩ := hh
  rw [counted, List.take_append_of_le_length hn]
  rfl

theorem counted_mono (hnm : n ≤ m) : counted p h n ≤ counted p h m :=
  (List.take_prefix_take_left hnm).countP_le

/-- **The count of the writes names the state**: where nothing else changes it, two positions that
count alike replay alike. -/
theorem replay_eq_of_counted_eq (hp : ∀ s c, p c = false → apply s c = s) (hnm : n ≤ m)
    (heq : counted p h n = counted p h m) : replay apply s₀ h n = replay apply s₀ h m := by
  induction m, hnm using Nat.le_induction with
  | base => rfl
  | succ m hnm ih =>
    have hn : counted p h n ≤ counted p h m := counted_mono hnm
    have hm : counted p h m ≤ counted p h (m + 1) := counted_mono (Nat.le_succ m)
    have hsame := ih (by omega)
    cases hc : h[m]? with
    | none =>
      have hlen := List.getElem?_eq_none_iff.mp hc
      rw [hsame, replay, replay, List.take_of_length_le hlen, List.take_of_length_le (by omega)]
    | some c =>
      have hcount := counted_succ (p := p) hc
      have hidle : p c = false := by
        cases hpc : p c with
        | false => rfl
        | true =>
          rw [hpc, if_pos rfl] at hcount
          omega
      rw [replay_succ hc, hp _ _ hidle, hsame]

end counted

/-! ## Levels -/

/-- What can be said of a state that has taken in a log, started from `s₀`, up to position `n`. -/
structure Level (apply : σ → γ → σ) (s₀ : σ) where
  At : List γ → Nat → σ → Prop
  start : ∀ h, At h 0 s₀
  le : ∀ {h n s}, At h n s → n ≤ h.length
  next : ∀ {h n s c}, At h n s → h[n]? = some c → At h (n + 1) (apply s c)
  extend : ∀ {h h' n s}, At h n s → h <+: h' → At h' n s

namespace Level

variable {apply : σ → γ → σ} {s₀ : σ}

/-- Commands that change nothing carry the state along. -/
theorem skip (L : Level apply s₀) {h : List γ} {n m : Nat} {s : σ} (hs : L.At h n s) (hnm : n ≤ m)
    (hidle : ∀ i, n ≤ i → i < m → ∃ c, h[i]? = some c ∧ apply s c = s) : L.At h m s := by
  induction m, hnm using Nat.le_induction with
  | base => exact hs
  | succ m hm ih =>
    obtain ⟨c, hc, hsame⟩ := hidle m hm (Nat.lt_succ_self m)
    rw [← hsame]
    exact L.next (ih fun i h1 h2 => hidle i h1 (Nat.lt_succ_of_lt h2)) hc

/-- The state is the replay of the log up to `n`. -/
def exact (apply : σ → γ → σ) (s₀ : σ) : Level apply s₀ where
  At h n s := n ≤ h.length ∧ s = replay apply s₀ h n
  start _ := ⟨Nat.zero_le _, rfl⟩
  le hs := hs.1
  next := by
    rintro h n s c ⟨_, rfl⟩ hc
    exact ⟨(List.getElem?_eq_some_iff.mp hc).1, (replay_succ hc).symm⟩
  extend := by
    rintro h h' n s ⟨hn, rfl⟩ hh
    exact ⟨hn.trans hh.length_le, (replay_extend hh hn).symm⟩

end Level

/-! ## Slots -/

/-- A state that is read slot by slot, under commands that overwrite slots. -/
structure Slots (apply : σ → γ → σ) where
  Slot : Type w
  Value : Slot → Type w
  read : σ → (k : Slot) → Value k
  write : γ → (k : Slot) → Option (Value k)
  read_apply : ∀ s c k, read (apply s c) k = (write c k).getD (read s k)
  ext : ∀ {s t}, (∀ k, read s k = read t k) → s = t

namespace Slots

variable {apply : σ → γ → σ} (M : Slots.{u, v, w} apply)

/-- Commands that do not write a slot leave it alone. -/
theorem read_foldl_of_forall {l : List γ} {k : M.Slot} (hl : ∀ c ∈ l, M.write c k = none) (s : σ) :
    M.read (l.foldl apply s) k = M.read s k := by
  induction l generalizing s with
  | nil => rfl
  | cons c rest ih =>
    rw [List.foldl_cons, ih (fun x hx => hl x (List.mem_cons_of_mem _ hx)), M.read_apply,
      hl c List.mem_cons_self]
    rfl

/-- **The last writer decides**: behind a command that writes a slot, the slot holds what that
command or a later one wrote. -/
theorem exists_last_writer {l : List γ} {i : Nat} {c : γ} {k : M.Slot} (hc : l[i]? = some c)
    (hw : M.write c k ≠ none) :
    ∃ j d v, i ≤ j ∧ l[j]? = some d ∧ M.write d k = some v ∧
      ∀ s, M.read (l.foldl apply s) k = v := by
  induction l using List.reverseRecOn with
  | nil => cases hc
  | append_singleton l last ih =>
    obtain ⟨hlt, _⟩ := List.getElem?_eq_some_iff.mp hc
    have hend : (l ++ [last])[l.length]? = some last := by simp
    rw [List.length_append, List.length_singleton] at hlt
    cases hlast : M.write last k with
    | some v =>
      refine ⟨l.length, last, v, by omega, hend, hlast, fun s => ?_⟩
      rw [List.foldl_append, List.foldl_cons, List.foldl_nil, M.read_apply, hlast]
      rfl
    | none =>
      have hi : i < l.length := by
        by_contra hge
        obtain rfl : i = l.length := by omega
        rw [hend] at hc
        cases hc
        exact hw hlast
      rw [List.getElem?_append_left hi] at hc
      obtain ⟨j, d, v, hij, hj, hd, hread⟩ := ih hc
      obtain ⟨hjlt, _⟩ := List.getElem?_eq_some_iff.mp hj
      refine ⟨j, d, v, hij, by rw [List.getElem?_append_left hjlt, hj], hd, fun s => ?_⟩
      rw [List.foldl_append, List.foldl_cons, List.foldl_nil, M.read_apply, hlast]
      exact hread s

end Slots

/-- A level that is a condition on each slot. -/
structure SlotLevel {apply : σ → γ → σ} (M : Slots.{u, v, w} apply) (s₀ : σ) where
  At : List γ → Nat → (k : M.Slot) → M.Value k → Prop
  start : ∀ h k, At h 0 k (M.read s₀ k)
  next : ∀ {h n k v c}, At h n k v → h[n]? = some c → At h (n + 1) k ((M.write c k).getD v)
  extend : ∀ {h h' n k v}, At h n k v → n ≤ h.length → h <+: h' → At h' n k v
  mono : ∀ {h m n k v}, At h n k v → m ≤ n → At h m k v

namespace SlotLevel

variable {apply : σ → γ → σ} {M : Slots.{u, v, w} apply} {s₀ : σ}

/-- Every slot is at its level. -/
def level (P : SlotLevel M s₀) : Level apply s₀ where
  At h n s := n ≤ h.length ∧ ∀ k, P.At h n k (M.read s k)
  start h := ⟨Nat.zero_le _, P.start h⟩
  le hs := hs.1
  next := by
    rintro h n s c ⟨_, hs⟩ hc
    refine ⟨(List.getElem?_eq_some_iff.mp hc).1, fun k => ?_⟩
    rw [M.read_apply]
    exact P.next (hs k) hc
  extend := by
    rintro h h' n s ⟨hn, hs⟩ hh
    exact ⟨hn.trans hh.length_le, fun k => P.extend (hs k) hn hh⟩

variable (P : SlotLevel M s₀) {h : List γ} {m n : Nat} {s t r : σ}

theorem level_mono (hs : P.level.At h n s) (hmn : m ≤ n) : P.level.At h m s :=
  ⟨hmn.trans hs.1, fun k => P.mono (hs.2 k) hmn⟩

/-- A state put together from two others. -/
theorem level_mix (hs : P.level.At h n s) (ht : P.level.At h n t)
    (hr : ∀ k, M.read r k = M.read s k ∨ M.read r k = M.read t k) : P.level.At h n r := by
  refine ⟨hs.1, fun k => ?_⟩
  rcases hr k with hk | hk
  · rw [hk]
    exact hs.2 k
  · rw [hk]
    exact ht.2 k

/-! ### Freshness -/

/-- Each slot is as it was after the first `q` commands, for some `q` from `n` on. -/
def fresh (M : Slots.{u, v, w} apply) (s₀ : σ) : SlotLevel M s₀ where
  At h n k v := ∃ q, n ≤ q ∧ q ≤ h.length ∧ v = M.read (replay apply s₀ h q) k
  start h k := ⟨0, Nat.le_refl _, Nat.zero_le _, rfl⟩
  next := by
    rintro h n k v c ⟨q, hnq, hq, rfl⟩ hc
    obtain ⟨hlt, _⟩ := List.getElem?_eq_some_iff.mp hc
    cases hw : M.write c k with
    | some v =>
      refine ⟨n + 1, Nat.le_refl _, hlt, ?_⟩
      rw [replay_succ hc, M.read_apply, hw]
      rfl
    | none =>
      rcases Nat.lt_or_eq_of_le hnq with hlt' | rfl
      · exact ⟨q, hlt', hq, rfl⟩
      · refine ⟨n + 1, Nat.le_refl _, hlt, ?_⟩
        rw [replay_succ hc, M.read_apply, hw]
  extend := by
    rintro h h' n k v ⟨q, hnq, hq, rfl⟩ _ hh
    exact ⟨q, hnq, hq.trans hh.length_le, by rw [replay_extend hh hq]⟩
  mono := by
    rintro h m n k v ⟨q, hnq, hq, rfl⟩ hmn
    exact ⟨q, hmn.trans hnq, hq, rfl⟩

/-- A state that is fresh at `n` shows every command below `n` that writes a slot, or a later
one. -/
theorem exists_writer_of_fresh (hs : (fresh M s₀).level.At h n s) {i : Nat} {c : γ} {k : M.Slot}
    (hi : i < n) (hc : h[i]? = some c) (hw : M.write c k ≠ none) :
    ∃ j d, i ≤ j ∧ h[j]? = some d ∧ M.write d k = some (M.read s k) := by
  obtain ⟨q, hnq, _, hq⟩ := hs.2 k
  have hci : (h.take q)[i]? = some c := by rw [List.getElem?_take_of_lt (by omega), hc]
  obtain ⟨j, d, v, hij, hj, hd, hread⟩ := M.exists_last_writer hci hw
  obtain ⟨hjlt, _⟩ := List.getElem?_eq_some_iff.mp hj
  rw [List.length_take] at hjlt
  refine ⟨j, d, hij, ?_, ?_⟩
  · rwa [List.getElem?_take_of_lt (by omega)] at hj
  · rw [hd, hq, replay, hread]

/-! ### Rejoining -/

/-- Each slot is written again from `n` on, or is as the whole log leaves it. -/
def rejoins (M : Slots.{u, v, w} apply) (s₀ : σ) : SlotLevel M s₀ where
  At h n k v := (∃ c ∈ h.drop n, M.write c k ≠ none) ∨ v = M.read (h.foldl apply s₀) k
  start h k := by
    by_cases hw : ∃ c ∈ h, M.write c k ≠ none
    · exact Or.inl hw
    · push Not at hw
      exact Or.inr (M.read_foldl_of_forall hw s₀).symm
  next := by
    intro h n k v c hv hc
    by_cases hlater : ∃ d ∈ h.drop (n + 1), M.write d k ≠ none
    · exact Or.inl hlater
    refine Or.inr ?_
    have hlater' : ∀ d ∈ h.drop (n + 1), M.write d k = none := by simpa using hlater
    rw [foldl_eq_replay_drop (n + 1), M.read_foldl_of_forall hlater', replay_succ hc, M.read_apply]
    cases hw : M.write c k with
    | some x => rfl
    | none =>
      -- nobody writes the slot from `n` on
      obtain ⟨hlt, hget⟩ := List.getElem?_eq_some_iff.mp hc
      have hdrop : h.drop n = c :: h.drop (n + 1) := by rw [List.drop_eq_getElem_cons hlt, hget]
      have hnone : ∀ d ∈ h.drop n, M.write d k = none := by
        rw [hdrop]
        intro d hd
        rcases List.mem_cons.mp hd with rfl | hd
        · exact hw
        · exact hlater' d hd
      rcases hv with ⟨d, hd, hdw⟩ | rfl
      · exact absurd (hnone d hd) hdw
      · rw [foldl_eq_replay_drop n, M.read_foldl_of_forall hnone]
  extend := by
    rintro h _ n k v hv hn ⟨more, rfl⟩
    rw [List.drop_append_of_le_length hn, List.foldl_append]
    by_cases hw : ∃ c ∈ more, M.write c k ≠ none
    · obtain ⟨c, hc, hcw⟩ := hw
      exact Or.inl ⟨c, List.mem_append_right _ hc, hcw⟩
    · rcases hv with ⟨c, hc, hcw⟩ | rfl
      · exact Or.inl ⟨c, List.mem_append_left _ hc, hcw⟩
      · exact Or.inr (M.read_foldl_of_forall (by simpa using hw) _).symm
  mono := by
    rintro h m n k v hv hmn
    refine hv.imp_left ?_
    rintro ⟨c, hc, hcw⟩
    refine ⟨c, ?_, hcw⟩
    rw [show n = m + (n - m) by omega, ← List.drop_drop] at hc
    exact List.mem_of_mem_drop hc

/-- **A state rejoins the log** if replaying the rest leads where the whole log leads. -/
theorem rejoins_at_iff : (rejoins M s₀).level.At h n s ↔
    n ≤ h.length ∧ (h.drop n).foldl apply s = h.foldl apply s₀ := by
  refine and_congr_right fun _ => ⟨fun hs => M.ext fun k => ?_, fun heq k => ?_⟩
  · by_cases hw : ∃ c ∈ h.drop n, M.write c k ≠ none
    · obtain ⟨c, hc, hcw⟩ := hw
      obtain ⟨i, hi⟩ := List.mem_iff_getElem?.mp hc
      obtain ⟨_, _, v, _, _, _, hread⟩ := M.exists_last_writer hi hcw
      rw [hread, foldl_eq_replay_drop (h := h) n, hread]
    · rw [M.read_foldl_of_forall (by simpa using hw)]
      exact (hs k).resolve_left hw
  · by_cases hw : ∃ c ∈ h.drop n, M.write c k ≠ none
    · exact Or.inl hw
    · refine Or.inr ?_
      rw [← heq, M.read_foldl_of_forall (by simpa using hw)]

end SlotLevel

end Infra
