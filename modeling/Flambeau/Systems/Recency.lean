import Mathlib.Data.List.Basic

namespace Flambeau.Systems

variable {K : Type} [DecidableEq K] {uses order : List K}

/-- `order` holds used keys, those used last in front; `uses` lists every use, the
newest first. -/
structure Recency (uses order : List K) : Prop where
  used : ∀ k ∈ order, k ∈ uses
  sorted : order.Pairwise fun a b => uses.idxOf a < uses.idxOf b

namespace Recency

theorem nil (uses : List K) : Recency uses [] := ⟨by simp, .nil⟩

theorem nodup (h : Recency uses order) : order.Nodup := by
  refine h.sorted.imp ?_
  intro a b hab heq
  rw [heq] at hab
  exact absurd hab (Nat.lt_irrefl _)

theorem sublist (h : Recency uses order) (hsub : order'.Sublist order) : Recency uses order' :=
  ⟨fun k hk => h.used k (hsub.subset hk), h.sorted.sublist hsub⟩

/-- The key used now goes to the front. -/
theorem use (h : Recency uses order) (k : K) :
    Recency (k :: uses) (k :: order.filter (· ≠ k)) := by
  have hshift : ∀ a ∈ order.filter (· ≠ k), (k :: uses).idxOf a = uses.idxOf a + 1 := by
    intro a ha
    have hne := of_decide_eq_true (List.mem_filter.mp ha).2
    exact List.idxOf_cons_ne _ (fun heq => hne heq.symm)
  constructor
  · intro a ha
    rcases List.mem_cons.mp ha with rfl | ha
    · exact List.mem_cons_self
    · exact List.mem_cons_of_mem _ (h.used a (List.mem_filter.mp ha).1)
  · rw [List.pairwise_cons]
    constructor
    · intro a ha
      rw [List.idxOf_cons_self, hshift a ha]
      exact Nat.succ_pos _
    · refine (h.sorted.sublist List.filter_sublist).imp_of_mem ?_
      intro a b ha hb hab
      rw [hshift a ha, hshift b hb]
      omega

/-- What stands before a key was used after it. -/
theorem before (h : Recency uses (front ++ k :: rest)) (ha : a ∈ front) :
    uses.idxOf a < uses.idxOf k :=
  (List.pairwise_append.mp h.sorted).2.2 a ha k List.mem_cons_self

end Recency
end Flambeau.Systems
