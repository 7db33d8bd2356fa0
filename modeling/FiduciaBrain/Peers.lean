import FiduciaBrain.Infra.Settle
import FiduciaBrain.Text

/-!
# The configured peers of a brain member

`normalize_member_url` and `resolve_peers` of `src/main.rs`. A member's id is its normalized URL, and
ids are compared as strings, so a spelling that one normalization does not settle is one more member
in every quorum. Normalizing trims whitespace and then slashes, each once: a spelling with whitespace
in front of its trailing slashes, and one with nothing but slashes, are not settled by it.
`resolved_iff` has the exact condition.
-/

namespace FiduciaBrain

open Function Infra

/-- `str::starts_with`. -/
def startsWith (s pre : String) : Bool := pre.toList.isPrefixOf s.toList

def normalizeMemberUrl (addr : String) : String :=
  let addr := trimEndSlashes (trim addr)
  if startsWith addr "http://" || startsWith addr "https://" then addr else "http://" ++ addr

/-- `Iterator::filter` with `HashSet::insert`: the ids that were not seen before. -/
def filterSeen (seen : List String) : List String → List String
  | [] => []
  | p :: rest => if p ∈ seen then filterSeen seen rest else p :: filterSeen (p :: seen) rest

def resolvePeers (raw : List String) (selfId : String) : List String :=
  filterSeen [] ((raw.map normalizeMemberUrl).filter (· ≠ selfId))

/-! ## What one normalization leaves -/

/-- What is left of an address before the scheme is looked at. -/
def stem (addr : String) : String := trimEndSlashes (trim addr)

/-- The address names one of the two schemes. -/
def Schemed (addr : String) : Prop :=
  "http://".toList <+: addr.toList ∨ "https://".toList <+: addr.toList

instance (addr : String) : Decidable (Schemed addr) := instDecidableOr

theorem normalizeMemberUrl_eq (addr : String) :
    normalizeMemberUrl addr = if Schemed (stem addr) then stem addr else "http://" ++ stem addr := by
  simp only [normalizeMemberUrl, startsWith, ← List.isPrefixOf_iff_prefix, Schemed, stem,
    Bool.or_eq_true]

theorem toList_stem (addr : String) :
    (stem addr).toList =
      ((addr.toList.dropWhile isWhitespace).rdropWhile isWhitespace).rdropWhile (· == '/') := by
  rw [stem, trimEndSlashes, String.toList_ofList, toList_trim]

theorem schemed_normalizeMemberUrl (addr : String) : Schemed (normalizeMemberUrl addr) := by
  rw [normalizeMemberUrl_eq]
  split
  · assumption
  · exact Or.inl (by simp [String.toList_append])

/-- A schemed address starts with a letter. -/
theorem Schemed.toList_eq {addr : String} (h : Schemed addr) :
    ∃ rest, addr.toList = 'h' :: rest := by
  rcases h with ⟨t, ht⟩ | ⟨t, ht⟩
  · exact ⟨_, ht.symm⟩
  · exact ⟨_, ht.symm⟩

/-- Only the end of a schemed address is trimmed. -/
theorem Schemed.stem_prefix {addr : String} (h : Schemed addr) :
    (stem addr).toList <+: (trim addr).toList ∧ (trim addr).toList <+: addr.toList := by
  obtain ⟨rest, hrest⟩ := h.toList_eq
  have hdrop : addr.toList.dropWhile isWhitespace = addr.toList := by
    rw [hrest]
    exact List.dropWhile_cons_of_neg (by decide)
  rw [toList_stem, toList_trim, hdrop]
  exact ⟨List.rdropWhile_prefix _ _, List.rdropWhile_prefix _ _⟩

theorem Schemed.stem_eq_self {addr : String} (h : Schemed addr) {c : Char}
    (hlast : addr.toList.getLast? = some c) (hspace : isWhitespace c = false) (hslash : c ≠ '/') :
    stem addr = addr := by
  obtain ⟨rest, hrest⟩ := h.toList_eq
  have hne : addr.toList ≠ [] := by simp [hrest]
  have hc : addr.toList.getLast hne = c := by
    rw [List.getLast?_eq_some_getLast hne] at hlast
    exact Option.some_inj.mp hlast
  have hdrop : addr.toList.dropWhile isWhitespace = addr.toList := by
    rw [hrest]
    exact List.dropWhile_cons_of_neg (by decide)
  have htrim : addr.toList.rdropWhile isWhitespace = addr.toList :=
    List.rdropWhile_eq_self_iff.mpr fun _ => by simp [hc, hspace]
  rw [← String.toList_inj, toList_stem, hdrop, htrim]
  exact List.rdropWhile_eq_self_iff.mpr fun _ => by simpa [hc] using hslash

theorem ne_slash_of_getLast?_stem {addr : String} {c : Char}
    (h : (stem addr).toList.getLast? = some c) : c ≠ '/' := by
  rw [toList_stem] at h
  simpa using of_getLast?_rdropWhile h

/-! ## Which spellings one normalization settles -/

/-- What is left of the address is not empty and does not end in whitespace. -/
def Clean (addr : String) : Prop :=
  ∃ c ∈ (stem addr).toList.getLast?, isWhitespace c = false

/-- The last character of the stem is the last one of the normalized address. -/
theorem getLast?_normalizeMemberUrl {addr : String} {c : Char}
    (h : (stem addr).toList.getLast? = some c) :
    (normalizeMemberUrl addr).toList.getLast? = some c := by
  rw [normalizeMemberUrl_eq]
  split
  · exact h
  · rw [String.toList_append, List.getLast?_append, h, Option.some_or]

theorem normalizeMemberUrl_of_clean {addr : String} (h : Clean addr) :
    IsFixedPt normalizeMemberUrl (normalizeMemberUrl addr) := by
  obtain ⟨c, hc, hspace⟩ := h
  have hstem : stem (normalizeMemberUrl addr) = normalizeMemberUrl addr :=
    (schemed_normalizeMemberUrl addr).stem_eq_self (getLast?_normalizeMemberUrl hc) hspace
      (ne_slash_of_getLast?_stem hc)
  have hagain : normalizeMemberUrl (normalizeMemberUrl addr) = normalizeMemberUrl addr := by
    rw [normalizeMemberUrl_eq (normalizeMemberUrl addr), hstem,
      if_pos (schemed_normalizeMemberUrl addr)]
  exact hagain

theorem isWhitespace_of_mem_scheme {c : Char} (hc : c ∈ "http://".toList ++ "https://".toList) :
    isWhitespace c = false := by
  have hall : ("http://".toList ++ "https://".toList).all (!isWhitespace ·) = true := by decide
  simpa using List.all_eq_true.mp hall c hc

/-- A schemed address whose stem is not schemed is down to a piece of its scheme. -/
theorem Schemed.stem_of_not_schemed {addr : String} (h : Schemed addr) (hs : ¬ Schemed (stem addr)) :
    ∀ c ∈ (stem addr).toList, isWhitespace c = false := by
  have hpre : (stem addr).toList <+: addr.toList := h.stem_prefix.1.trans h.stem_prefix.2
  have hscheme : (stem addr).toList <+: "http://".toList ∨
      (stem addr).toList <+: "https://".toList := by
    rcases h with h | h
    · exact .inl ((List.prefix_or_prefix_of_prefix h hpre).resolve_left fun h' => hs (.inl h'))
    · exact .inr ((List.prefix_or_prefix_of_prefix h hpre).resolve_left fun h' => hs (.inr h'))
  intro c hc
  rcases hscheme with hp | hp
  · exact isWhitespace_of_mem_scheme (List.mem_append_left _ (hp.mem hc))
  · exact isWhitespace_of_mem_scheme (List.mem_append_right _ (hp.mem hc))

/-- An address that normalizing leaves alone does not end in whitespace. -/
theorem isWhitespace_of_isFixedPt {addr : String} (h : IsFixedPt normalizeMemberUrl addr) {c : Char}
    (hc : addr.toList.getLast? = some c) : isWhitespace c = false := by
  have hschemed : Schemed addr := h.eq ▸ schemed_normalizeMemberUrl addr
  have heq : normalizeMemberUrl addr = addr := h.eq
  rw [normalizeMemberUrl_eq] at heq
  split at heq
  · obtain ⟨hstem, htrim⟩ := hschemed.stem_prefix
    rw [heq] at hstem
    have hsame : (trim addr).toList = addr.toList :=
      htrim.eq_of_length (Nat.le_antisymm htrim.length_le hstem.length_le)
    rw [← hsame, toList_trim] at hc
    exact of_getLast?_rdropWhile hc
  · next hs =>
    -- the scheme was put back, so the rest is a piece of it
    have hmem : c ∈ addr.toList := List.mem_of_getLast? hc
    rw [← heq, String.toList_append, List.mem_append] at hmem
    rcases hmem with hmem | hmem
    · exact isWhitespace_of_mem_scheme (List.mem_append_left _ hmem)
    · exact hschemed.stem_of_not_schemed hs c hmem

/-- **One normalization settles exactly the clean spellings.** -/
theorem isFixedPt_normalizeMemberUrl_iff {addr : String} :
    IsFixedPt normalizeMemberUrl (normalizeMemberUrl addr) ↔ Clean addr := by
  refine ⟨fun h => ?_, normalizeMemberUrl_of_clean⟩
  cases hlast : (stem addr).toList.getLast? with
  | some c =>
    exact ⟨c, hlast, isWhitespace_of_isFixedPt h (getLast?_normalizeMemberUrl hlast)⟩
  | none =>
    have hstem : stem addr = "" := by
      rw [← String.toList_inj, List.getLast?_eq_none_iff.mp hlast, String.toList_empty]
    have hbare : normalizeMemberUrl addr = "http://" := by
      rw [normalizeMemberUrl_eq, hstem]
      decide
    rw [hbare] at h
    exact absurd h.eq (by decide)

/-! ## What repeated normalization leaves -/

/-- The scheme of an address is not trimmed away whole. -/
theorem Schemed.stem_ne_nil {addr : String} (h : Schemed addr) : (stem addr).toList ≠ [] := by
  obtain ⟨rest, hrest⟩ := h.toList_eq
  intro hnil
  rw [toList_stem, hrest, List.dropWhile_cons_of_neg (by decide),
    List.rdropWhile_eq_nil_iff] at hnil
  have hkept : ('h' :: rest).rdropWhile isWhitespace ≠ [] := fun hall =>
    absurd (List.rdropWhile_eq_nil_iff.mp hall 'h' List.mem_cons_self) (by decide)
  obtain ⟨c, t, hct⟩ := List.exists_cons_of_ne_nil hkept
  have hpre := List.rdropWhile_prefix isWhitespace ('h' :: rest)
  rw [hct, List.cons_prefix_cons] at hpre
  have hslash := hnil c (by simp [hct])
  rw [hpre.1] at hslash
  exact absurd hslash (by decide)

theorem Schemed.settles_or_shrinks {addr : String} (h : Schemed addr) :
    IsFixedPt normalizeMemberUrl (normalizeMemberUrl addr) ∨
      (normalizeMemberUrl addr).toList.length < addr.toList.length := by
  by_cases hs : Schemed (stem addr)
  · have heq : normalizeMemberUrl addr = stem addr := by rw [normalizeMemberUrl_eq, if_pos hs]
    have hpre : (stem addr).toList <+: addr.toList := h.stem_prefix.1.trans h.stem_prefix.2
    rw [heq]
    rcases Nat.eq_or_lt_of_le hpre.length_le with hlen | hlt
    · have hself : stem addr = addr := String.toList_inj.mp (hpre.eq_of_length hlen)
      rw [hself] at heq ⊢
      exact .inl heq
    · exact .inr hlt
  · -- what is left is a piece of the scheme, and the scheme put before it settles it
    left
    have hlast := List.getLast?_eq_some_getLast h.stem_ne_nil
    exact normalizeMemberUrl_of_clean
      ⟨_, hlast, h.stem_of_not_schemed hs _ (List.getLast_mem h.stem_ne_nil)⟩

/-- The address normalized until nothing changes. -/
def fullyNormalized (addr : String) : String := normalizeMemberUrl^[addr.toList.length + 9] addr

theorem length_normalizeMemberUrl_le (addr : String) :
    (normalizeMemberUrl addr).toList.length ≤ addr.toList.length + 7 := by
  have hstem : (stem addr).toList.length ≤ addr.toList.length := by
    rw [toList_stem]
    calc _ ≤ ((addr.toList.dropWhile isWhitespace).rdropWhile isWhitespace).length :=
          (List.rdropWhile_prefix _ _).length_le
      _ ≤ (addr.toList.dropWhile isWhitespace).length := (List.rdropWhile_prefix _ _).length_le
      _ ≤ addr.toList.length := (List.dropWhile_suffix _).length_le
  rw [normalizeMemberUrl_eq]
  split
  · omega
  · rw [String.toList_append, List.length_append]
    have hseven : "http://".toList.length = 7 := by decide
    omega

/-- Each pass after the first settles the address or shortens it. -/
theorem isFixedPt_fullyNormalized (addr : String) :
    IsFixedPt normalizeMemberUrl (fullyNormalized addr) := by
  rw [fullyNormalized, show addr.toList.length + 9 = addr.toList.length + 7 + 1 + 1 from rfl,
    iterate_succ_apply]
  exact isFixedPt_iterate (fun s => s.toList.length) (fun s _ => schemed_normalizeMemberUrl s)
    (fun _ h => h.settles_or_shrinks) _ (schemed_normalizeMemberUrl addr)
    (length_normalizeMemberUrl_le addr)

theorem fullyNormalized_of_clean {addr : String} (h : Clean addr) :
    fullyNormalized addr = normalizeMemberUrl addr := by
  have hone : IsFixedPt normalizeMemberUrl (normalizeMemberUrl^[1] addr) := by
    rw [iterate_one]
    exact normalizeMemberUrl_of_clean h
  have hmany := isFixedPt_fullyNormalized addr
  rw [fullyNormalized] at hmany ⊢
  rw [eq_of_isFixedPt_iterate hmany hone, iterate_one]

/-- Two spellings that one pass makes equal are equal ever after. -/
theorem fullyNormalized_congr {addr other : String}
    (h : normalizeMemberUrl addr = normalizeMemberUrl other) :
    fullyNormalized addr = fullyNormalized other := by
  have hsplit : ∀ s, fullyNormalized s
      = normalizeMemberUrl^[s.toList.length + 8] (normalizeMemberUrl s) :=
    fun s => iterate_succ_apply _ _ _
  have hfixed := hsplit addr ▸ isFixedPt_fullyNormalized addr
  have hfixed' := hsplit other ▸ isFixedPt_fullyNormalized other
  rw [hsplit, hsplit, ← h]
  rw [← h] at hfixed'
  exact eq_of_isFixedPt_iterate hfixed hfixed'

/-! ## The peers -/

theorem filterSeen_eq (seen l : List String) :
    filterSeen seen l = (l.filter (· ∉ seen)).eraseDups := by
  induction l generalizing seen with
  | nil => rfl
  | cons p rest ih =>
    rw [filterSeen]
    split
    · next h => rw [ih, List.filter_cons_of_neg (by simpa using h)]
    · next h =>
      rw [ih, List.filter_cons_of_pos (by simpa using h), List.eraseDups_cons, List.filter_filter]
      refine congrArg (fun l => p :: List.eraseDups l) (List.filter_congr fun x _ => ?_)
      by_cases hx : x = p
      · simp [hx]
      · simp [hx]

/-- **What the peers of a member should be**: distinct ids that normalizing leaves alone and that are
not the member's own, and of every other member listed, in the order of its first mention. -/
structure Resolved (raw : List String) (own : String) : Prop where
  distinct : (resolvePeers raw (normalizeMemberUrl own)).Nodup
  settled : ∀ p ∈ resolvePeers raw (normalizeMemberUrl own), normalizeMemberUrl p = p
  others : ∀ p ∈ resolvePeers raw (normalizeMemberUrl own),
    normalizeMemberUrl p ≠ normalizeMemberUrl own
  complete : resolvePeers raw (normalizeMemberUrl own)
    = ((raw.map fullyNormalized).filter (· ≠ fullyNormalized own)).eraseDups

theorem nodup_filterSeen (seen l : List String) : (filterSeen seen l).Nodup := by
  induction l generalizing seen with
  | nil => exact List.nodup_nil
  | cons x rest ih =>
    rw [filterSeen]
    split
    · exact ih seen
    · refine List.nodup_cons.mpr ⟨fun hmem => ?_, ih (x :: seen)⟩
      simp [filterSeen_eq, List.mem_eraseDups] at hmem

theorem resolvePeers_eq (raw : List String) (selfId : String) :
    resolvePeers raw selfId = ((raw.map normalizeMemberUrl).filter (· ≠ selfId)).eraseDups := by
  rw [resolvePeers, filterSeen_eq]
  simp

theorem mem_resolvePeers {raw : List String} {selfId p : String} :
    p ∈ resolvePeers raw selfId ↔ p ∈ raw.map normalizeMemberUrl ∧ p ≠ selfId := by
  rw [resolvePeers_eq, List.mem_eraseDups, List.mem_filter, decide_eq_true_eq]

/-- **When the peers are the distinct other members**: every listed spelling that is not dropped as
the member's own is clean, and is not what the own id would be if it were normalized to the end. -/
theorem resolved_iff_listed (raw : List String) (own : String) :
    Resolved raw own ↔ ∀ s ∈ raw, normalizeMemberUrl s ≠ normalizeMemberUrl own →
      Clean s ∧ normalizeMemberUrl s ≠ fullyNormalized own := by
  constructor
  · intro h s hs hne
    have hmem : normalizeMemberUrl s ∈ resolvePeers raw (normalizeMemberUrl own) :=
      mem_resolvePeers.mpr ⟨List.mem_map_of_mem hs, hne⟩
    refine ⟨isFixedPt_normalizeMemberUrl_iff.mp (h.settled _ hmem), ?_⟩
    rw [h.complete, List.mem_eraseDups, List.mem_filter] at hmem
    exact of_decide_eq_true hmem.2
  · intro h
    have hsettled : ∀ p ∈ resolvePeers raw (normalizeMemberUrl own), normalizeMemberUrl p = p := by
      intro p hp
      obtain ⟨hmem, hne⟩ := mem_resolvePeers.mp hp
      obtain ⟨s, hs, rfl⟩ := List.mem_map.mp hmem
      exact normalizeMemberUrl_of_clean (h s hs hne).1
    refine ⟨nodup_filterSeen _ _, hsettled, fun p hp => ?_, ?_⟩
    · rw [hsettled p hp]
      exact (mem_resolvePeers.mp hp).2
    · rw [resolvePeers_eq, List.filter_map, List.filter_map]
      refine congrArg List.eraseDups ?_
      -- one pass and all passes drop the same spellings as the own id
      have hkeep : ∀ s ∈ raw, (normalizeMemberUrl s ≠ normalizeMemberUrl own ↔
          fullyNormalized s ≠ fullyNormalized own) := fun s hs => by
        by_cases heq : normalizeMemberUrl s = normalizeMemberUrl own
        · simp [heq, fullyNormalized_congr heq]
        · have hs' := h s hs heq
          simp [heq, fullyNormalized_of_clean hs'.1, hs'.2]
      have hfilter : raw.filter ((fun p => decide (p ≠ normalizeMemberUrl own)) ∘ normalizeMemberUrl)
          = raw.filter ((fun p => decide (p ≠ fullyNormalized own)) ∘ fullyNormalized) :=
        List.filter_congr fun s hs => by
          simp only [comp_apply]
          exact decide_eq_decide.mpr (hkeep s hs)
      rw [← hfilter]
      refine List.map_congr_left fun s hs => ?_
      obtain ⟨hraw, hne⟩ := List.mem_filter.mp hs
      simp only [comp_apply, decide_eq_true_eq] at hne
      exact (fullyNormalized_of_clean (h s hraw hne).1).symm

/-- Clean spellings resolve to the other members. -/
theorem resolved_of_clean {raw : List String} {own : String} (h : ∀ s ∈ own :: raw, Clean s) :
    Resolved raw own := by
  refine (resolved_iff_listed raw own).mpr fun s hs hne => ⟨h s (List.mem_cons_of_mem _ hs), ?_⟩
  rwa [fullyNormalized_of_clean (h own List.mem_cons_self)]

/-- **Peer resolution works exactly for the spellings that one normalization settles**: normalizing
is idempotent on the member's own id and on every listed peer, and the peers are the distinct other
members, if and only if every one of these is clean. -/
theorem resolved_iff (raw : List String) (own : String) :
    ((∀ s ∈ own :: raw, normalizeMemberUrl (normalizeMemberUrl s) = normalizeMemberUrl s) ∧
      Resolved raw own) ↔ ∀ s ∈ own :: raw, Clean s := by
  constructor
  · exact fun h s hs => isFixedPt_normalizeMemberUrl_iff.mp (h.1 s hs)
  · exact fun h => ⟨fun s hs => normalizeMemberUrl_of_clean (h s hs), resolved_of_clean h⟩

/-- Two spellings of one peer that are two members, and an id that normalizing twice changes. -/
theorem phantom_peer :
    resolvePeers ["brain-b:9095 /", "brain-b:9095"] (normalizeMemberUrl "brain-a:9095")
        = ["http://brain-b:9095 ", "http://brain-b:9095"] ∧
      ¬ Resolved ["brain-b:9095 /", "brain-b:9095"] "brain-a:9095" ∧
      normalizeMemberUrl (normalizeMemberUrl "brain-b:9095 /")
        ≠ normalizeMemberUrl "brain-b:9095 /" := by
  have hresult : resolvePeers ["brain-b:9095 /", "brain-b:9095"] (normalizeMemberUrl "brain-a:9095")
      = ["http://brain-b:9095 ", "http://brain-b:9095"] := by decide
  refine ⟨hresult, fun h => ?_, by decide⟩
  have hsettled := h.settled
  rw [hresult] at hsettled
  exact absurd (hsettled "http://brain-b:9095 " List.mem_cons_self) (by decide)

end FiduciaBrain
