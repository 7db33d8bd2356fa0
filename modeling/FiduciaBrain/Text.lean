import FiduciaBrain.Membership
import Mathlib.Data.List.DropRight

/-!
# Trimmed text

What `str::trim` and `str::to_ascii_lowercase` leave, and when a failure domain derived from a
node's parts is empty.
-/

namespace FiduciaBrain

/-- `str::trim_end_matches('/')`. -/
def trimEndSlashes (s : String) : String := String.ofList (s.toList.rdropWhile (· == '/'))

theorem toList_trim (s : String) :
    (trim s).toList = (s.toList.dropWhile isWhitespace).rdropWhile isWhitespace := by
  rw [trim, String.toList_ofList]
  rfl

/-- What is left of a list does not end in what was dropped from its end. -/
theorem of_getLast?_rdropWhile {drop : Char → Bool} {l : List Char} {c : Char}
    (h : (l.rdropWhile drop).getLast? = some c) : drop c = false := by
  have hne : l.rdropWhile drop ≠ [] := by
    intro hnil
    rw [hnil] at h
    cases h
  rw [List.getLast?_eq_some_getLast hne] at h
  have hnot := List.rdropWhile_last_not drop l hne
  rwa [Option.some_inj.mp h, Bool.not_eq_true] at hnot

theorem trim_eq_empty_iff {s : String} : trim s = "" ↔ ∀ c ∈ s.toList, isWhitespace c = true := by
  rw [← String.toList_inj, toList_trim, String.toList_empty, List.rdropWhile_eq_nil_iff]
  constructor
  · intro h
    by_contra hne
    have hdrop : s.toList.dropWhile isWhitespace ≠ [] := by
      simpa [List.dropWhile_eq_nil_iff] using hne
    have hhead := h _ (List.head_mem hdrop)
    rw [List.head_dropWhile_not isWhitespace hdrop] at hhead
    cases hhead
  · intro h c hc
    exact h c ((List.dropWhile_sublist _).mem hc)

@[simp] theorem trim_empty : trim "" = "" := trim_eq_empty_iff.mpr (by simp)

@[simp] theorem toAsciiLowercase_eq_empty_iff {s : String} : toAsciiLowercase s = "" ↔ s = "" := by
  rw [← String.toList_inj, toAsciiLowercase, String.toList_ofList, ← String.toList_inj]
  simp

/-! ## Derived domains -/

/-- The node says nothing of where it is. -/
def Nowhere (cloudProvider region clusterId : String) : Prop :=
  trim cloudProvider = "" ∧ trim region = "" ∧ trim clusterId = ""

instance (cloudProvider region clusterId : String) :
    Decidable (Nowhere cloudProvider region clusterId) := instDecidableAnd

variable {cloudProvider region clusterId : String}

theorem normalizedFailureDomainFromParts_of_nowhere (h : Nowhere cloudProvider region clusterId)
    (fallback : String) :
    normalizedFailureDomainFromParts cloudProvider region clusterId fallback = fallback := by
  obtain ⟨h1, h2, h3⟩ := h
  simp only [normalizedFailureDomainFromParts, h1, h2, h3]
  rfl

/-- A node that says something of where it is has a domain, whatever the fallback. -/
theorem normalizedFailureDomainFromParts_of_somewhere
    (h : ¬ Nowhere cloudProvider region clusterId) (fallback : String) :
    normalizedFailureDomainFromParts cloudProvider region clusterId fallback ≠ "" ∧
      ∀ other, normalizedFailureDomainFromParts cloudProvider region clusterId fallback
        = normalizedFailureDomainFromParts cloudProvider region clusterId other := by
  simp only [normalizedFailureDomainFromParts]
  cases h1 : (toAsciiLowercase (trim cloudProvider)).isEmpty <;>
  cases h2 : (toAsciiLowercase (trim region)).isEmpty <;>
  cases h3 : (toAsciiLowercase (trim clusterId)).isEmpty <;>
    simp_all [Nowhere]

/-- A report without a domain of its own is in the one derived from where it says the node is. -/
theorem normalizedFailureDomain_of_blank {report : HeartbeatReport}
    (h : trim report.failureDomain = "") :
    normalizedFailureDomain report =
      normalizedFailureDomainFromParts report.cloudProvider report.region report.clusterId "" := by
  rw [normalizedFailureDomain, if_neg (by simp [h])]

theorem normalizedFailureDomain_of_named {report : HeartbeatReport}
    (h : trim report.failureDomain ≠ "") :
    normalizedFailureDomain report = toAsciiLowercase (trim report.failureDomain) := by
  rw [normalizedFailureDomain, if_pos (by simpa using h)]

end FiduciaBrain
