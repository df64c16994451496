import Mathlib.Algebra.BigOperators.Fin
import Mathlib.Algebra.Order.BigOperators.Group.Finset
import Flambeau.Runtime.CollectiveSteps

namespace Flambeau.Runtime.Collective
open Flambeau.Systems

variable {n : Nat} {F : Floats} {calls : List Call} {inputs : Fin n → Nat → Buffers} {s s' : State n} {r : Fin n}

namespace Inv

theorem start (hn : 1 ≤ n) : Inv F calls inputs (start n) where
  guards := fun _ => iff_of_false nofun nofun
  sound := rfl
  counts := by
    have : Nonempty (Fin n) := ⟨⟨0, hn⟩⟩
    exact Barrier.counts_start
  ranks := fun _ => .inl ⟨rfl, rfl⟩
  between := by
    intro k c _ _ hG
    exact absurd hG (even rfl)
  results := by
    intro r k o h
    change ([] : List (Except CollectiveError Bytes))[k]? = some o at h
    rw [List.getElem?_nil] at h
    cases h

theorem step (hi : Inv F calls inputs s) (hmatch : Matching calls inputs) (h : step F calls inputs s r = some s') :
    Inv F calls inputs s' := by
  obtain ⟨c, hc, h⟩ := Option.bind_eq_some_iff.mp h
  dsimp only at h
  by_cases hentry : (s.ranks r).pc = .entry
  · rw [hentry] at h
    exact hi.entry hmatch hentry hc h
  obtain ⟨hpass, hok⟩ := (hi.ranks r).inCall hc hentry
  cases hpc : (s.ranks r).pc with
  | entry => exact absurd hpc hentry
  | panicked =>
    rw [hpc] at hok
    exact hok.elim
  | deposit g =>
    rw [hpc] at h hok
    cases g with
    | wanted => exact hi.acquire h rfl (by rw [hpc]; rfl) rfl (.inr ⟨c, hc, hpass, hok⟩) (by rw [hpc]; rfl)
    | held =>
      cases h
      exact hi.deposit hpc hc
    | done =>
      cases h
      exact hi.release (by rw [hpc]; rfl) rfl (by rw [hpc]; rfl) rfl
        (.inr ⟨c, hc, hpass, hok.1, hok.2.1, fun _ => hok.2.2.2⟩) (by rw [hpc]; rfl)
  | arrive second =>
    rw [hpc] at h
    cases h
    exact hi.arrive hpc hc
  | wait second g =>
    rw [hpc] at h
    dsimp only at h
    split at h
    · cases h
    · rename_i hopen
      cases h
      exact hi.leave hpc hc hopen
  | middle g =>
    rw [hpc] at h hok
    cases g with
    | wanted => exact hi.acquire h rfl (by rw [hpc]; rfl) rfl (.inr ⟨c, hc, hpass, hok⟩) (by rw [hpc]; rfl)
    | held => exact hi.middle hpc hc h
    | done =>
      cases h
      exact hi.release (by rw [hpc]; rfl) rfl (by rw [hpc]; rfl) rfl (.inr ⟨c, hc, hpass, hok.1, hok.2.2⟩)
        (by rw [hpc]; rfl)
  | last g =>
    rw [hpc] at h hok
    cases g with
    | wanted => exact hi.acquire h rfl (by rw [hpc]; rfl) rfl (.inr ⟨c, hc, hpass, hok⟩) (by rw [hpc]; rfl)
    | held => exact hi.last hpc hc h
    | done =>
      cases h
      exact hi.returns hpc hc

theorem run (hn : 1 ≤ n) (hmatch : Matching calls inputs) {as : List (Fin n)}
    (h : (mesh F calls inputs).runFrom (Collective.start n) as = some s) : Inv F calls inputs s :=
  System.runFrom_keeps (I := Inv F calls inputs) (P := fun _ _ => True) (fun _ _ _ hi _ hs => hi.step hmatch hs)
    (start hn) (System.meets_true _ as) h

/-! No rank is left waiting. -/

theorem results_le (hi : Inv F calls inputs s) (r : Fin n) : (s.ranks r).results.length ≤ calls.length := by
  apply Decidable.byContradiction
  intro hlt
  have hget : (s.ranks r).results[calls.length]? = some (s.ranks r).results[calls.length] :=
    List.getElem?_eq_getElem (by omega)
  obtain ⟨c, hc, -⟩ := hi.results r _ _ hget
  rw [List.getElem?_eq_none (Nat.le_refl _)] at hc
  cases hc

/-- A rank that cannot step has no call left, or waits for the lock or at the barrier. -/
theorem blocked (hi : Inv F calls inputs s) (h : Collective.step F calls inputs s r = none) :
    ((s.ranks r).pc = .entry ∧ calls[(s.ranks r).results.length]? = none) ∨
      ((s.ranks r).pc.holds = false ∧ s.lock ≠ none) ∨ (s.ranks r).pc.waiting = some s.barrier.generation := by
  unfold Collective.step at h
  cases hc : calls[(s.ranks r).results.length]? with
  | none =>
    rcases hi.ranks r with ⟨hpc, -⟩ | ⟨c, hc', -, -⟩
    · exact .inl ⟨hpc, rfl⟩
    · rw [hc] at hc'
      cases hc'
  | some c =>
    rw [hc, Option.bind_some] at h
    dsimp only at h
    have hacquire : ∀ pc, s.acquire r pc = none → s.lock ≠ none := by
      intro pc ha hnone
      unfold State.acquire at ha
      rw [hnone] at ha
      dsimp only at ha
      rw [hi.sound] at ha
      cases ha
    cases hpc : (s.ranks r).pc with
    | entry =>
      rw [hpc] at h
      dsimp only at h
      split at h <;> cases h
    | panicked =>
      obtain ⟨-, hok⟩ := (hi.ranks r).inCall hc (by rw [hpc]; nofun)
      rw [hpc] at hok
      exact hok.elim
    | deposit g =>
      rw [hpc] at h
      cases g with
      | wanted => exact .inr (.inl ⟨rfl, hacquire _ h⟩)
      | held | done => cases h
    | arrive second =>
      rw [hpc] at h
      cases h
    | wait second g =>
      rw [hpc] at h
      dsimp only at h
      split at h
      · rename_i hg
        exact .inr (.inr (by rw [hg]; rfl))
      · cases h
    | middle g =>
      rw [hpc] at h
      cases g with
      | wanted => exact .inr (.inl ⟨rfl, hacquire _ h⟩)
      | held =>
        dsimp only at h
        split at h <;> cases h
      | done => cases h
    | last g =>
      rw [hpc] at h
      cases g with
      | wanted => exact .inr (.inl ⟨rfl, hacquire _ h⟩)
      | held =>
        dsimp only at h
        split at h <;> cases h
      | done => cases h

/-- Where no rank can step, all calls have returned. -/
theorem stuck (hi : Inv F calls inputs s) (h : ∀ r, Collective.step F calls inputs s r = none) (r : Fin n) :
    (s.ranks r).results.length = calls.length := by
  have hfree : s.lock = none := by
    apply Decidable.byContradiction
    intro hne
    obtain ⟨q, hq⟩ := Option.ne_none_iff_exists'.mp hne
    have hholds : (s.ranks q).pc.holds = true := (hi.guards q).mpr hq
    rcases hi.blocked (h q) with ⟨hpc, -⟩ | ⟨hno, -⟩ | hwait
    · rw [hpc] at hholds
      cases hholds
    · rw [hholds] at hno
      cases hno
    · unfold Pc.waiting at hwait
      split at hwait
      · rename_i hpc
        rw [hpc] at hholds
        cases hholds
      · cases hwait
  have hcases : ∀ r, ((s.ranks r).pc = .entry ∧ (s.ranks r).results.length = calls.length) ∨
      (s.ranks r).pc.waiting = some s.barrier.generation := by
    intro r
    rcases hi.blocked (h r) with ⟨hpc, hnone⟩ | ⟨-, hlock⟩ | hwait
    · have hge := List.getElem?_eq_none_iff.mp hnone
      exact .inl ⟨hpc, Nat.le_antisymm (hi.results_le r) hge⟩
    · exact absurd hfree hlock
    · exact .inr hwait
  obtain ⟨t, ht⟩ := hi.counts.runs
  obtain ⟨htpc, htlen⟩ := (hcases t).resolve_right ht
  have hG : s.barrier.generation = before calls inputs calls.length := by
    rcases hi.ranks t with ⟨-, hG⟩ | ⟨c, -, -, hok⟩
    · rw [hG, htlen]
    · rw [htpc] at hok
      exact hok.elim
  rcases hcases r with ⟨-, hlen⟩ | hwait
  · exact hlen
  · rcases hi.ranks r with ⟨hpc, -⟩ | ⟨c, hc, hpass, hok⟩
    · rw [hpc] at hwait
      cases hwait
    have hlt := (List.getElem?_eq_some_iff.mp hc).1
    have hle := @before_mono _ calls inputs _ _ hlt
    rw [before_passes hpass, ← hG] at hle
    cases hpc : (s.ranks r).pc with
    | wait second g =>
      rw [hpc] at hwait hok
      cases hwait
      cases second with
      | false =>
        have hg := hok.1
        omega
      | true =>
        have hg := hok.1
        omega
    | entry | panicked | deposit | arrive | middle | last =>
      rw [hpc] at hwait
      cases hwait

end Inv

/-! Runs end. -/

def Guard.index : Guard → Nat
  | .wanted => 0
  | .held => 1
  | .done => 2

/-- How far a rank is in its call. -/
def Pc.index : Pc → Nat
  | .entry => 0
  | .deposit g => 1 + g.index
  | .arrive false => 4
  | .wait false _ => 5
  | .middle g => 6 + g.index
  | .arrive true => 9
  | .wait true _ => 10
  | .last g => 11 + g.index
  | .panicked => 14

def Rank.position (rank : Rank) : Nat := 14 * rank.results.length + rank.pc.index

theorem Guard.index_le (g : Guard) : g.index ≤ 2 := by
  cases g <;> decide

theorem Pc.index_le (pc : Pc) : pc.index ≤ 14 := by
  cases pc with
  | entry | panicked => decide
  | deposit g =>
    have hg := g.index_le
    change 1 + g.index ≤ 14
    omega
  | middle g =>
    have hg := g.index_le
    change 6 + g.index ≤ 14
    omega
  | last g =>
    have hg := g.index_le
    change 11 + g.index ≤ 14
    omega
  | arrive second => cases second <;> decide
  | wait second g =>
    cases second with
    | false => exact Nat.le_add_right 5 9
    | true => exact Nat.le_add_right 10 4

theorem finish_position (rank : Rank) (result : Except CollectiveError Bytes) :
    (rank.finish result).position = 14 * (rank.results.length + 1) := by
  change 14 * (rank.results ++ [result]).length + 0 = _
  rw [List.length_append, List.length_singleton, Nat.add_zero]

theorem pass_position (rank : Rank) (c : Call) (me : Nat) (second : Bool) :
    14 * rank.results.length + (if second then 10 else 5) < (rank.pass c me second).position ∧
      (rank.pass c me second).position ≤ 14 * (rank.results.length + 1) := by
  unfold Rank.pass
  cases second with
  | false =>
    rw [if_neg Bool.false_ne_true, if_neg Bool.false_ne_true]
    split
    · change _ < 14 * rank.results.length + 6 ∧ 14 * rank.results.length + 6 ≤ _
      omega
    · change _ < 14 * rank.results.length + 9 ∧ 14 * rank.results.length + 9 ≤ _
      omega
  | true =>
    rw [if_pos rfl, if_pos rfl]
    split
    · change _ < 14 * rank.results.length + 11 ∧ 14 * rank.results.length + 11 ≤ _
      omega
    · rw [finish_position]
      omega

/-- A rank that steps gets on, and the others stay where they are. -/
theorem step_position (h : step F calls inputs s r = some s') : (s.ranks r).results.length < calls.length ∧
    ∃ rank, s'.ranks = set s.ranks r rank ∧ (s.ranks r).position < rank.position ∧
      rank.position ≤ 14 * ((s.ranks r).results.length + 1) := by
  obtain ⟨c, hc, h⟩ := Option.bind_eq_some_iff.mp h
  refine ⟨(List.getElem?_eq_some_iff.mp hc).1, ?_⟩
  dsimp only at h
  have hgo : ∀ rank : Rank, rank.results = (s.ranks r).results → (s.ranks r).pc.index < rank.pc.index →
      (s.ranks r).position < rank.position ∧ rank.position ≤ 14 * ((s.ranks r).results.length + 1) := by
    intro rank hres hlt
    have hle := rank.pc.index_le
    unfold Rank.position
    rw [hres]
    omega
  have hacquire : ∀ pc, (s.ranks r).pc.index < pc.index → (s.ranks r).pc.index < 14 → s.acquire r pc = some s' →
      ∃ rank, s'.ranks = set s.ranks r rank ∧ (s.ranks r).position < rank.position ∧
        rank.position ≤ 14 * ((s.ranks r).results.length + 1) := by
    intro pc hlt hend ha
    unfold State.acquire at ha
    split at ha
    · cases ha
    · split at ha
      · cases ha
        exact ⟨_, rfl, hgo _ rfl hend⟩
      · cases ha
        exact ⟨_, rfl, hgo _ rfl hlt⟩
  cases hpc : (s.ranks r).pc with
  | entry =>
    rw [hpc] at h
    dsimp only at h
    split at h
    · cases h
      refine ⟨_, rfl, ?_⟩
      rw [finish_position]
      unfold Rank.position
      rw [hpc]
      change 14 * _ + 0 < _ ∧ _
      omega
    · cases h
      refine ⟨_, rfl, hgo _ rfl ?_⟩
      rw [hpc]
      dsimp only
      split <;> decide
  | panicked =>
    rw [hpc] at h
    cases h
  | deposit g =>
    rw [hpc] at h hacquire hgo
    cases g with
    | wanted => exact hacquire _ (by decide) (by decide) h
    | held | done =>
      cases h
      exact ⟨_, rfl, hgo _ rfl (by dsimp only; decide)⟩
  | arrive second =>
    rw [hpc] at h
    cases h
    unfold State.arrive
    split
    · rename_i g _
      refine ⟨_, rfl, hgo _ rfl ?_⟩
      rw [hpc]
      change (Pc.arrive second).index < (Pc.wait second g).index
      cases second with
      | false => exact Nat.lt_succ_self 4
      | true => exact Nat.lt_succ_self 9
    · obtain ⟨hlt, hle⟩ := pass_position (s.ranks r) c r second
      refine ⟨_, rfl, Nat.lt_of_le_of_lt ?_ hlt, hle⟩
      unfold Rank.position
      rw [hpc]
      cases second with
      | false => exact Nat.add_le_add_left (by decide) _
      | true => exact Nat.add_le_add_left (by decide) _
  | wait second g =>
    rw [hpc] at h
    dsimp only at h
    split at h
    · cases h
    · cases h
      obtain ⟨hlt, hle⟩ := pass_position (s.ranks r) c r second
      refine ⟨_, rfl, Nat.lt_of_le_of_lt ?_ hlt, hle⟩
      unfold Rank.position
      rw [hpc]
      cases second with
      | false => exact Nat.le_refl _
      | true => exact Nat.le_refl _
  | middle g =>
    rw [hpc] at h hacquire hgo
    cases g with
    | wanted => exact hacquire _ (by decide) (by decide) h
    | held =>
      dsimp only at h
      split at h
      · cases h
        exact ⟨_, rfl, hgo _ rfl (by dsimp only; decide)⟩
      · cases h
        exact ⟨_, rfl, hgo _ rfl (by dsimp only; decide)⟩
    | done =>
      cases h
      exact ⟨_, rfl, hgo _ rfl (by dsimp only; decide)⟩
  | last g =>
    rw [hpc] at h hacquire hgo
    cases g with
    | wanted => exact hacquire _ (by decide) (by decide) h
    | held =>
      dsimp only at h
      split at h
      · cases h
        exact ⟨_, rfl, hgo _ rfl (by dsimp only; decide)⟩
      · cases h
        exact ⟨_, rfl, hgo _ rfl (by dsimp only; decide)⟩
    | done =>
      cases h
      refine ⟨_, rfl, ?_⟩
      rw [finish_position]
      unfold Rank.position
      rw [hpc]
      change 14 * _ + 13 < _ ∧ _
      omega

/-- How far all the ranks are. -/
def progress (s : State n) : Nat := ∑ r, (s.ranks r).position

theorem step_progress (h : step F calls inputs s r = some s') (hle : ∀ u, (s.ranks u).position ≤ 14 * calls.length) :
    progress s < progress s' ∧ ∀ u, (s'.ranks u).position ≤ 14 * calls.length := by
  obtain ⟨hcall, rank, hranks, hlt, hbound⟩ := step_position h
  have hself : s'.ranks r = rank := by rw [hranks, set_self]
  have hothers : ∀ u, u ≠ r → s'.ranks u = s.ranks u := by
    intro u hu
    rw [hranks, set_ne _ _ hu]
  constructor
  · refine Finset.sum_lt_sum ?_ ⟨r, Finset.mem_univ r, by rw [hself]; exact hlt⟩
    intro u _
    by_cases hu : u = r
    · rw [hu, hself]
      exact Nat.le_of_lt hlt
    · rw [hothers u hu]
  · intro u
    by_cases hu : u = r
    · rw [hu, hself]
      omega
    · rw [hothers u hu]
      exact hle u

theorem run_progress {as : List (Fin n)} (h : (mesh F calls inputs).runFrom s as = some s')
    (hle : ∀ u, (s.ranks u).position ≤ 14 * calls.length) :
    progress s + as.length ≤ progress s' ∧ ∀ u, (s'.ranks u).position ≤ 14 * calls.length := by
  induction as generalizing s with
  | nil =>
    cases h
    exact ⟨Nat.le_refl _, hle⟩
  | cons a as ih =>
    obtain ⟨s₁, hs, hr⟩ := Option.bind_eq_some_iff.mp h
    obtain ⟨hlt, hle₁⟩ := step_progress hs hle
    obtain ⟨hrest, hle'⟩ := ih hr hle₁
    refine ⟨?_, hle'⟩
    rw [List.length_cons]
    omega

theorem run_length {as : List (Fin n)} (h : (mesh F calls inputs).runFrom (start n) as = some s) :
    as.length ≤ n * (14 * calls.length) := by
  obtain ⟨hsum, hle⟩ := run_progress h (fun _ => Nat.zero_le _)
  have hall := Finset.sum_le_card_nsmul Finset.univ (fun u => (s.ranks u).position) (14 * calls.length) fun u _ => hle u
  rw [Finset.card_univ, Fintype.card_fin, smul_eq_mul] at hall
  unfold progress at hsum
  omega

/-- Rank `me` is about to read or reduce the slot of rank `q`. -/
def Reads (c : Call) (me q : Nat) : Pc → Prop
  | .middle .held =>
    match c.op with
    | .broadcast root => q = root
    | _ => True
  | .last .held => q = me
  | _ => False

theorem Inv.reads (hi : Inv F calls inputs s) {c : Call} {q : Fin n} (hc : calls[(s.ranks r).results.length]? = some c)
    (h : Reads c r q (s.ranks r).pc) : (s.ranks q).results.length = (s.ranks r).results.length := by
  unfold Reads at h
  split at h
  · rename_i hpc
    obtain ⟨hpass, hok⟩ := (hi.ranks r).inCall hc (by rw [hpc]; nofun)
    rw [hpc] at hok
    exact (hi.ranks q).same hpass hok.1
  · rw [Fin.ext h]
  · exact h.elim

end Flambeau.Runtime.Collective
