import Mathlib.Data.List.DropRight
import Flambeau.Stream.Search

namespace Flambeau.Stream

variable {p : α → Bool} {s u w : List α}

/-- A list and its trailing run. -/
theorem rdropWhile_run (p : α → Bool) (s : List α) :
    ∃ r, s = s.rdropWhile p ++ r ∧ ∀ c ∈ r, p c = true :=
  ⟨s.rtakeWhile p, List.rdropWhile_append_rtakeWhile.symm, fun _ hc => List.mem_rtakeWhile_imp hc⟩

theorem rdropWhile_append_run (u : List α) (h : ∀ c ∈ w, p c = true) :
    (u ++ w).rdropWhile p = u.rdropWhile p := by
  induction w using List.reverseRecOn with
  | nil => rw [List.append_nil]
  | append_singleton w c ih =>
    rw [← List.append_assoc, List.rdropWhile_concat_pos _ _ _ (h c (by simp))]
    exact ih fun d hd => h d (List.mem_append_left _ hd)

theorem rdropWhile_eq_nil (h : ∀ c ∈ w, p c = true) : w.rdropWhile p = [] :=
  List.rdropWhile_eq_nil_iff.mpr h

/-- A list without a trailing run keeps its end in front of any other. -/
theorem rdropWhile_append (hu : u.rdropWhile p = u) (w : List α) :
    (u ++ w).rdropWhile p = u ++ w.rdropWhile p := by
  induction w using List.reverseRecOn with
  | nil => rw [List.append_nil, hu, List.rdropWhile_nil, List.append_nil]
  | append_singleton w c ih =>
    rw [← List.append_assoc]
    by_cases hc : p c = true
    · rw [List.rdropWhile_concat_pos _ _ _ hc, List.rdropWhile_concat_pos _ _ _ hc, ih]
    · rw [List.rdropWhile_concat_neg _ _ _ hc, List.rdropWhile_concat_neg _ _ _ hc,
        List.append_assoc]

/-- An element outside the class lies before the trailing run. -/
theorem lt_rdropWhile {j : Nat} {c : α} (h : s[j]? = some c) (hc : p c = false) :
    j < (s.rdropWhile p).length := by
  obtain ⟨r, hs, hr⟩ := rdropWhile_run p s
  apply Nat.lt_of_not_le
  intro hle
  rw [hs, List.getElem?_append_right hle] at h
  have hmem := hr c (List.mem_of_getElem? h)
  rw [hc] at hmem
  cases hmem

/-- What stands before the trailing run stays before it when the list grows. -/
theorem rdropWhile_grows (h : s.rdropWhile p <+: w) : s.rdropWhile p <+: w.rdropWhile p := by
  obtain ⟨r, rfl⟩ := h
  rw [rdropWhile_append (List.rdropWhile_idempotent p s)]
  exact List.prefix_append _ _

section Patterns
variable [DecidableEq α]

theorem find_first {pat : List α} {i : Nat} (h : find pat s = some i) :
    pat <+: s.drop i ∧ ∀ j, pat <+: s.drop j → i ≤ j := by
  induction s generalizing i with
  | nil =>
    rw [find] at h
    split at h
    · rename_i hp
      cases h
      exact ⟨List.isPrefixOf_iff_prefix.mp hp, fun j _ => Nat.zero_le j⟩
    · cases h
  | cons c s ih =>
    rw [find] at h
    split at h
    · rename_i hp
      cases h
      exact ⟨List.isPrefixOf_iff_prefix.mp hp, fun j _ => Nat.zero_le j⟩
    · rename_i hp
      obtain ⟨k, hk, rfl⟩ := Option.map_eq_some_iff.mp h
      obtain ⟨hhere, hfirst⟩ := ih hk
      refine ⟨hhere, ?_⟩
      intro j hj
      cases j with
      | zero => exact absurd (List.isPrefixOf_iff_prefix.mpr hj) hp
      | succ j => exact Nat.succ_le_succ (hfirst j hj)

theorem find_isSome {pat : List α} {j : Nat} (h : pat <+: s.drop j) : (find pat s).isSome = true := by
  induction s generalizing j with
  | nil =>
    rw [List.drop_nil] at h
    rw [find, if_pos (List.isPrefixOf_iff_prefix.mpr h)]
    rfl
  | cons c s ih =>
    rw [find]
    split
    · rfl
    · rename_i hp
      cases j with
      | zero => exact absurd (List.isPrefixOf_iff_prefix.mpr h) hp
      | succ j => rw [Option.isSome_map, ih h]

end Patterns
end Flambeau.Stream
