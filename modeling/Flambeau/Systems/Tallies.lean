import Mathlib.Data.List.Induction
import Mathlib.Data.List.Nodup
import Mathlib.Logic.Function.Iterate

namespace Flambeau.Systems

section Counting
variable {α γ : Type} [DecidableEq α] (first : γ) (next : γ → γ)

/-- One more of a key: its count goes on, and a new key starts. -/
def bump (tok : α) : List (α × γ) → List (α × γ)
  | [] => [(tok, first)]
  | (t, c) :: rest => if t = tok then (t, next c) :: rest else (t, c) :: bump tok rest

/-- The counts of a list, one element after the other. -/
def tally (xs : List α) : List (α × γ) := xs.foldl (fun counts tok => bump first next tok counts) []

/-- The counts of runs of equal elements, the current one at `run`. -/
def runs (prev : α) (run : γ) : List α → List (α × γ)
  | [] => [(prev, run)]
  | tok :: rest => if tok = prev then runs prev (next run) rest else (prev, run) :: runs tok first rest

/-- Each element of the list once, with its count. -/
structure Tallies (xs : List α) (counts : List (α × γ)) : Prop where
  nodup : (counts.map Prod.fst).Nodup
  mem : ∀ t c, (t, c) ∈ counts ↔ t ∈ xs ∧ c = next^[xs.count t - 1] first

variable {first next} {tok : α} {counts counts' : List (α × γ)} {xs ys : List α}

theorem keys_bump (tok : α) (counts : List (α × γ)) : (bump first next tok counts).map Prod.fst =
    if tok ∈ counts.map Prod.fst then counts.map Prod.fst else counts.map Prod.fst ++ [tok] := by
  induction counts with
  | nil => simp [bump]
  | cons e rest ih =>
    obtain ⟨t, c⟩ := e
    by_cases htok : t = tok
    · simp [bump, htok]
    · have hne : tok ≠ t := fun h => htok h.symm
      simp only [bump, if_neg htok, List.map_cons, ih, List.mem_cons, hne, false_or]
      split <;> simp

theorem mem_bump (hnodup : (counts.map Prod.fst).Nodup) : (t, c) ∈ bump first next tok counts ↔
    if t = tok then (∃ c', (tok, c') ∈ counts ∧ c = next c') ∨ (tok ∉ counts.map Prod.fst ∧ c = first)
    else (t, c) ∈ counts := by
  induction counts with
  | nil =>
    by_cases ht : t = tok
    · simp [bump, ht]
    · simp [bump, ht]
  | cons e rest ih =>
    obtain ⟨k, n⟩ := e
    obtain ⟨hfresh, hrest⟩ := List.nodup_cons.mp hnodup
    have ih := ih hrest
    by_cases hk : k = tok
    · subst hk
      have hnot : ∀ n', (k, n') ∉ rest := fun n' hmem => hfresh (List.mem_map.mpr ⟨_, hmem, rfl⟩)
      by_cases ht : t = k
      · subst ht
        simp [bump, hnot]
      · simp [bump, ht]
    · have hne : tok ≠ k := fun h => hk h.symm
      simp only [bump, if_neg hk, List.mem_cons, ih, Prod.mk.injEq, List.map_cons, hne, false_or, false_and]
      by_cases ht : t = tok
      · subst ht
        simp [hne]
      · simp [ht]

theorem nodup_bump (hnodup : (counts.map Prod.fst).Nodup) : ((bump first next tok counts).map Prod.fst).Nodup := by
  rw [keys_bump]
  split
  · exact hnodup
  · rename_i hfresh
    exact List.nodup_append.mpr ⟨hnodup, List.nodup_singleton tok, fun a ha b hb hab => by
      rw [List.mem_singleton.mp hb] at hab
      exact hfresh (hab ▸ ha)⟩

theorem Tallies.key_mem (h : Tallies first next xs counts) : t ∈ counts.map Prod.fst ↔ t ∈ xs := by
  constructor
  · intro ht
    obtain ⟨⟨k, c⟩, hmem, rfl⟩ := List.mem_map.mp ht
    exact ((h.mem k c).mp hmem).1
  · intro ht
    exact List.mem_map.mpr ⟨_, (h.mem t _).mpr ⟨ht, rfl⟩, rfl⟩

/-- One more element counted. -/
theorem Tallies.bump (h : Tallies first next xs counts) :
    Tallies first next (xs ++ [tok]) (Systems.bump first next tok counts) := by
  refine ⟨nodup_bump h.nodup, fun t c => ?_⟩
  rw [mem_bump h.nodup, h.key_mem, List.count_append]
  by_cases ht : t = tok
  · subst ht
    rw [if_pos rfl, List.count_singleton_self, Nat.add_sub_cancel]
    by_cases hmem : t ∈ xs
    · have hpos : 0 < xs.count t := List.count_pos_iff.mpr hmem
      have hnext : next (next^[xs.count t - 1] first) = next^[xs.count t] first := by
        have hsucc := Function.iterate_succ_apply' next (xs.count t - 1) first
        rw [← hsucc, Nat.succ_eq_add_one, Nat.sub_add_cancel hpos]
      simp [h.mem, hmem, hnext]
    · have hnone : xs.count t = 0 := List.count_eq_zero.mpr hmem
      simp [h.mem, hmem, hnone]
  · have hcount : [tok].count t = 0 := List.count_eq_zero.mpr (by simpa using ht)
    rw [if_neg ht, h.mem, hcount, Nat.add_zero]
    simp [ht]

theorem tally_tallies (xs : List α) : Tallies first next xs (tally first next xs) := by
  induction xs using List.reverseRecOn with
  | nil => exact ⟨List.nodup_nil, fun t c => by simp [tally]⟩
  | append_singleton xs tok ih =>
    unfold tally at ih ⊢
    rw [List.foldl_append]
    exact ih.bump

theorem Tallies.of_perm (h : Tallies first next xs counts) (hperm : xs.Perm ys) : Tallies first next ys counts := by
  refine ⟨h.nodup, fun t c => ?_⟩
  rw [h.mem, hperm.mem_iff, hperm.count_eq]

/-- There is one tally, in any order. -/
theorem Tallies.perm (h : Tallies first next xs counts) (h' : Tallies first next xs counts') :
    counts.Perm counts' := by
  refine (List.perm_ext_iff_of_nodup (List.Nodup.of_map _ h.nodup) (List.Nodup.of_map _ h'.nodup)).mpr ?_
  rintro ⟨t, c⟩
  rw [h.mem, h'.mem]

/-- What the runs of a sorted list are. -/
theorem mem_runs {le : α → α → Prop} (hanti : ∀ a b, le a b → le b a → a = b) {prev : α} {run : γ}
    (hsorted : (prev :: xs).Pairwise le) : (t, c) ∈ runs first next prev run xs ↔
      if t = prev then c = next^[xs.count prev] run else t ∈ xs ∧ c = next^[xs.count t - 1] first := by
  induction xs generalizing prev run with
  | nil =>
    by_cases ht : t = prev
    · simp [runs, ht]
    · simp [runs, ht]
  | cons tok rest ih =>
    obtain ⟨hbefore, htail⟩ := List.pairwise_cons.mp hsorted
    by_cases htok : tok = prev
    · subst htok
      simp only [runs, if_true]
      rw [ih htail]
      by_cases ht : t = tok
      · subst ht
        simp
      · have hne : tok ≠ t := fun h => ht h.symm
        simp [ht, List.count_cons_of_ne hne]
    · have hgone : prev ∉ tok :: rest := fun hmem => by
        rcases List.mem_cons.mp hmem with heq | hmem
        · exact htok heq.symm
        · exact htok (hanti _ _ ((List.pairwise_cons.mp htail).1 prev hmem) (hbefore tok List.mem_cons_self))
      have hzero : (tok :: rest).count prev = 0 := List.count_eq_zero.mpr hgone
      simp only [runs, if_neg htok, List.mem_cons, Prod.mk.injEq]
      rw [ih htail]
      by_cases ht : t = prev
      · subst ht
        have hne : t ≠ tok := fun h => htok h.symm
        have hrest : t ∉ rest := fun hmem => hgone (List.mem_cons_of_mem _ hmem)
        rw [hzero]
        simp [hne, hrest]
      · by_cases hfirst : t = tok
        · subst hfirst
          simp [ht]
        · have hne : tok ≠ t := fun h => hfirst h.symm
          simp [ht, hfirst, List.count_cons_of_ne hne]

theorem nodup_runs {le : α → α → Prop} (hanti : ∀ a b, le a b → le b a → a = b) {prev : α} {run : γ}
    (hsorted : (prev :: xs).Pairwise le) : ((runs first next prev run xs).map Prod.fst).Nodup := by
  induction xs generalizing prev run with
  | nil => exact List.nodup_singleton prev
  | cons tok rest ih =>
    obtain ⟨hbefore, htail⟩ := List.pairwise_cons.mp hsorted
    by_cases htok : tok = prev
    · subst htok
      simp only [runs, if_true]
      exact ih htail
    · simp only [runs, if_neg htok]
      refine List.nodup_cons.mpr ⟨fun hmem => ?_, ih htail⟩
      obtain ⟨⟨t, c⟩, hrun, rfl⟩ := List.mem_map.mp hmem
      rw [mem_runs hanti htail] at hrun
      split at hrun
      · rename_i heq
        exact htok heq.symm
      · exact htok (hanti _ _ ((List.pairwise_cons.mp htail).1 _ hrun.1) (hbefore tok List.mem_cons_self))

theorem runs_tallies {le : α → α → Prop} (hanti : ∀ a b, le a b → le b a → a = b) {x : α}
    (hsorted : (x :: xs).Pairwise le) : Tallies first next (x :: xs) (runs first next x first xs) := by
  refine ⟨nodup_runs hanti hsorted, fun t c => ?_⟩
  rw [mem_runs hanti hsorted]
  by_cases ht : t = x
  · subst ht
    simp
  · have hne : x ≠ t := fun h => ht h.symm
    simp [ht, List.count_cons_of_ne hne]

end Counting

section Updates
variable {κ γ β : Type}

/-- Updates at different places may come in any order. -/
theorem foldl_modify_perm {counts counts' : List (κ × γ)} (place : κ → Nat) (update : γ → β → β)
    (hplace : ∀ a b, place a = place b → a = b) (hperm : counts.Perm counts')
    (hnodup : (counts.map Prod.fst).Nodup) (ls : List β) :
    counts.foldl (fun ls e => ls.modify (place e.1) (update e.2)) ls =
      counts'.foldl (fun ls e => ls.modify (place e.1) (update e.2)) ls := by
  refine hperm.foldl_eq' (fun x hx y hy ls => ?_) ls
  by_cases hxy : x = y
  · rw [hxy]
  · refine List.modify_modify_ne _ _ ls fun hsame => hxy ?_
    exact List.inj_on_of_nodup_map hnodup hx hy (hplace _ _ hsame)

end Updates

end Flambeau.Systems
