import Flambeau.Systems.Runs
import Flambeau.Systems.Barrier

namespace Flambeau.Forward.ArCoordinator
open Systems

/-- Where a rank is in a call of an all-reduce. A critical section of `partials` is one step;
the barriers of a call are numbered. -/
inductive Pc where
  | publish
  | arrive (i : Nat)
  | wait (i : Nat) (generation : Nat)
  | snapshot
  | reset
  | panicked

/-- A rank that sleeps at a barrier. -/
def Pc.waiting : Pc → Option Nat
  | wait _ generation => some generation
  | _ => none

structure Rank (α : Type) where
  pc : Pc
  /-- What this call has read of `partials`. -/
  snap : List α
  /-- What the calls so far have read. -/
  results : List (List α)

structure State (α : Type) (n : Nat) where
  partials : Fin n → Option α
  barrier : Barrier
  ranks : Fin n → Rank α

variable {α : Type} {n : Nat}

def start : State α n := ⟨fun _ => none, ⟨0, 0⟩, fun _ => ⟨.publish, [], []⟩⟩

def State.at (s : State α n) (r : Fin n) (rank : Rank α) : State α n := { s with ranks := set s.ranks r rank }

/-- Behind barrier `i`: the snapshot, another fence, the reset by rank 0, or the next call.
`fences` barriers stand behind the snapshot: one in `ar_sum_f32`, two in `ar_publish_pull` and
`ar_epilogue`. -/
def Rank.pass (fences : Nat) (rank : Rank α) (me i : Nat) : Rank α :=
  if i = 0 then { rank with pc := .snapshot }
  else if i < fences then { rank with pc := .arrive (i + 1) }
  else if i = fences then { rank with pc := if me = 0 then .reset else .arrive (fences + 1) }
  else { rank with pc := .publish, results := rank.results ++ [rank.snap] }

/-- One step of a rank; `mine r k` is the partial, or the pointer to it, that rank `r` publishes
in its call `k`. -/
def step (fences : Nat) (mine : Fin n → Nat → α) (s : State α n) (r : Fin n) : Option (State α n) :=
  match (s.ranks r).pc with
  | .publish =>
    some { s.at r { s.ranks r with pc := .arrive 0 } with
      partials := set s.partials r (some (mine r (s.ranks r).results.length)) }
  | .arrive i =>
    match s.barrier.arrive n with
    | (barrier, some generation) => some { s.at r { s.ranks r with pc := .wait i generation } with barrier }
    | (barrier, none) => some { s.at r ((s.ranks r).pass fences r i) with barrier }
  | .wait i generation =>
    if s.barrier.generation = generation then none else some (s.at r ((s.ranks r).pass fences r i))
  | .snapshot =>
    match (List.ofFn s.partials).mapM id with
    | some snap => some (s.at r { s.ranks r with pc := .arrive 1, snap })
    -- The `expect` of a slot that nobody has published.
    | none => some (s.at r { s.ranks r with pc := .panicked })
  | .reset => some { s.at r { s.ranks r with pc := .arrive (fences + 1) } with partials := fun _ => none }
  | .panicked => none

/-- The ranks of a cluster, each in an endless sequence of calls. -/
def coordinator (fences : Nat) (mine : Fin n → Nat → α) : System (State α n) (Fin n) where
  init s := s = start
  step := step fences mine

variable {fences : Nat} {mine : Fin n → Nat → α} {s s' : State α n} {r : Fin n}

/-- The generations in front of call `k`. -/
def base (fences k : Nat) : Nat := (fences + 2) * k

theorem base_succ (k : Nat) : base fences (k + 1) = base fences k + (fences + 2) := Nat.mul_succ ..

/-- A generation tells the call and its barrier. -/
theorem base_unique {k k' i j : Nat} (hi : i < fences + 2) (hj : j < fences + 2)
    (h : base fences k + i = base fences k' + j) : k = k' ∧ i = j := by
  have hdiv : ∀ {k i : Nat}, i < fences + 2 → (base fences k + i) / (fences + 2) = k := by
    intro k i hi
    rw [base, Nat.mul_add_div (by omega), Nat.div_eq_of_lt hi, Nat.add_zero]
  have hk : k = k' := by rw [← @hdiv k i hi, h, hdiv hj]
  subst hk
  exact ⟨rfl, by omega⟩

/-- The generation of a call's last barrier, in which the slots are emptied. -/
def Emptying (fences generation : Nat) : Prop := ∃ k, generation = base fences k + (fences + 1)

/-- The partials of call `k`. -/
def partialsOf (mine : Fin n → Nat → α) (k : Nat) : List α := List.ofFn fun q => mine q k

/-- What a rank brings to barrier `i` of call `k`. -/
structure Brings (fences : Nat) (mine : Fin n → Nat → α) (k i : Nat) (slots : Fin n → Option α) (r : Fin n)
    (snap : List α) : Prop where
  known : i < fences + 2
  published : i = 0 → slots r = some (mine r k)
  read : 0 < i → snap = partialsOf mine k
  emptied : i = fences + 1 → r.val = 0 → ∀ q, slots q = none

/-- What a rank finds once barrier `i` of call `k` has opened. -/
structure Finds (fences : Nat) (mine : Fin n → Nat → α) (k i : Nat) (slots : Fin n → Option α) (r : Fin n)
    (snap : List α) : Prop where
  known : i < fences + 2
  read : 0 < i → snap = partialsOf mine k
  emptied : i = fences + 1 → slots r = none

/-- Each call passes `fences + 2` generations of the barrier. -/
def PcOk (fences : Nat) (mine : Fin n → Nat → α) (k generation : Nat) (slots : Fin n → Option α) (r : Fin n)
    (snap : List α) : Pc → Prop
  | .publish => generation = base fences k ∧ slots r = none
  | .arrive i => generation = base fences k + i ∧ Brings fences mine k i slots r snap
  | .wait i g => g = base fences k + i ∧
      (generation = base fences k + i ∧ Brings fences mine k i slots r snap ∨
        generation = base fences k + i + 1 ∧ Finds fences mine k i slots r snap)
  | .snapshot => generation = base fences k + 1
  | .reset => generation = base fences k + (fences + 1) ∧ snap = partialsOf mine k ∧ r.val = 0
  | .panicked => False

structure Inv (fences : Nat) (mine : Fin n → Nat → α) (s : State α n) : Prop where
  counts : s.barrier.Counts fun r => (s.ranks r).pc.waiting
  ranks : ∀ r, PcOk fences mine (s.ranks r).results.length s.barrier.generation s.partials r (s.ranks r).snap
    (s.ranks r).pc
  published : ∀ k, s.barrier.generation = base fences k + 1 → ∀ q, s.partials q = some (mine q k)
  results : ∀ r k snap, (s.ranks r).results[k]? = some snap → snap = partialsOf mine k

theorem not_emptying {k i G : Nat} (hi : i < fences + 1) (hG : G = base fences k + i) : ¬ Emptying fences G := by
  rintro ⟨k', hk'⟩
  have heq := (base_unique (by omega) (by omega) (hG.symm.trans hk')).2
  omega

/-- The slots as another rank leaves them. -/
theorem PcOk.other {k G : Nat} {slots slots' : Fin n → Option α} {snap : List α} {pc : Pc}
    (h : PcOk fences mine k G slots r snap pc) (hmine : ¬ Emptying fences G → slots' r = slots r)
    (hnone : Emptying fences G → (∀ q, slots q = none) → ∀ q, slots' q = none) :
    PcOk fences mine k G slots' r snap pc := by
  have hbrings : ∀ i, G = base fences k + i → Brings fences mine k i slots r snap →
      Brings fences mine k i slots' r snap := by
    intro i hG hb
    refine ⟨hb.known, ?_, hb.read, ?_⟩
    · intro hi
      exact (hmine (not_emptying (by omega) hG)).trans (hb.published hi)
    · intro hi hr
      exact hnone ⟨k, by rw [hG, hi]⟩ (hb.emptied hi hr)
  have hfinds : ∀ i, G = base fences k + i + 1 → Finds fences mine k i slots r snap →
      Finds fences mine k i slots' r snap := by
    intro i hG hf
    refine ⟨hf.known, hf.read, ?_⟩
    intro hi
    have hnext : G = base fences (k + 1) + 0 := by rw [base_succ]; omega
    exact (hmine (not_emptying (by omega) hnext)).trans (hf.emptied hi)
  cases pc with
  | publish => exact ⟨h.1, (hmine (not_emptying (i := 0) (by omega) h.1)).trans h.2⟩
  | arrive i => exact ⟨h.1, hbrings i h.1 h.2⟩
  | wait i g => exact ⟨h.1, h.2.imp (fun hb => ⟨hb.1, hbrings i hb.1 hb.2⟩) fun hf => ⟨hf.1, hfinds i hf.1 hf.2⟩⟩
  | snapshot => exact h
  | reset => exact h
  | panicked => exact h

/-- A rank that waits in the barrier's generation has brought what the barrier is for. -/
theorem PcOk.brought {k g c i : Nat} {slots : Fin n → Option α} {snap : List α} {pc : Pc}
    (h : PcOk fences mine k g slots r snap pc) (hw : pc.waiting = some g) (hi : i < fences + 2)
    (hg : g = base fences c + i) : k = c ∧ pc = .wait i g ∧ Brings fences mine k i slots r snap := by
  cases pc with
  | wait b g' =>
    cases hw
    obtain ⟨hb, ⟨-, hbrings⟩ | ⟨hnext, -⟩⟩ := h
    · obtain ⟨rfl, rfl⟩ := base_unique hbrings.known hi (hb.symm.trans hg)
      exact ⟨rfl, rfl, hbrings⟩
    · omega
  | _ => cases hw

/-- A barrier lets a rank through. -/
theorem pass_ok {k G i : Nat} {slots : Fin n → Option α} {rank : Rank α} (hlen : rank.results.length = k)
    (hpos : 0 < fences) (hG : G = base fences k + i + 1)
    (hfinds : Finds fences mine k i slots r rank.snap) :
    PcOk fences mine (rank.pass fences r i).results.length G slots r (rank.pass fences r i).snap
      (rank.pass fences r i).pc := by
  have hknown := hfinds.known
  subst hlen
  unfold Rank.pass
  split
  · rename_i hi
    rw [hi] at hG
    exact hG
  · rename_i hi
    have hread := hfinds.read (by omega)
    split
    · exact ⟨by omega, by omega, by omega, fun _ => hread, by omega⟩
    · split
      · rename_i hlast
        dsimp only
        split
        · rename_i hr
          exact ⟨by omega, hread, hr⟩
        · rename_i hr
          exact ⟨by omega, by omega, by omega, fun _ => hread, fun _ hzero => absurd hzero hr⟩
      · refine ⟨?_, hfinds.emptied (by omega)⟩
        dsimp only
        rw [List.length_append, List.length_singleton, base_succ]
        omega

theorem pass_waiting (rank : Rank α) (me i : Nat) : (rank.pass fences me i).pc.waiting = none := by
  unfold Rank.pass
  split
  · rfl
  · split
    · rfl
    · split
      · dsimp only
        split <;> rfl
      · rfl

theorem pass_results {rank : Rank α} {k i : Nat} {slots : Fin n → Option α}
    (hlen : rank.results.length = k) (hfinds : Finds fences mine k i slots r rank.snap)
    (h : ∀ j snap, rank.results[j]? = some snap → snap = partialsOf mine j) :
    ∀ j snap, (rank.pass fences r i).results[j]? = some snap → snap = partialsOf mine j := by
  unfold Rank.pass
  split
  · exact h
  · rename_i hi
    split
    · exact h
    · split
      · exact h
      · intro j snap hj
        change (rank.results ++ [rank.snap])[j]? = some snap at hj
        rcases Nat.lt_trichotomy j rank.results.length with hlt | heq | hgt
        · rw [List.getElem?_append_left hlt] at hj
          exact h j snap hj
        · rw [heq, List.getElem?_concat_length] at hj
          cases hj
          rw [heq, hlen]
          exact hfinds.read (by omega)
        · rw [List.getElem?_eq_none (by rw [List.length_append, List.length_singleton]; omega)] at hj
          cases hj

theorem mapM_published {x : Fin n → α} {slots : Fin n → Option α} (h : ∀ q, slots q = some (x q)) :
    (List.ofFn slots).mapM id = some (List.ofFn x) := by
  have hsome : ∀ l : List α, (l.map some).mapM id = some l := by
    intro l
    induction l with
    | nil => rfl
    | cons a l ih =>
      rw [List.map_cons, List.mapM_cons, ih]
      rfl
  have hslots : slots = some ∘ x := funext h
  rw [hslots, ← List.map_ofFn]
  exact hsome _

namespace Inv

/-- A rank that goes on while the barrier stays as it is. -/
theorem goes (h : Inv fences mine s) {rank : Rank α} {slots : Fin n → Option α}
    (hnow : (s.ranks r).pc.waiting ≠ some s.barrier.generation) (hthen : rank.pc.waiting = none)
    (hrank : PcOk fences mine rank.results.length s.barrier.generation slots r rank.snap rank.pc)
    (hslots : ∀ u, u ≠ r → ¬ Emptying fences s.barrier.generation → slots u = s.partials u)
    (hnone : Emptying fences s.barrier.generation → (∀ q, s.partials q = none) → ∀ q, slots q = none)
    (hpublished : ∀ k, s.barrier.generation = base fences k + 1 → ∀ q, slots q = some (mine q k))
    (hresults : ∀ k snap, rank.results[k]? = some snap → snap = partialsOf mine k) :
    Inv fences mine { s.at r rank with partials := slots } where
  counts := h.counts.pass hnow (by change (set s.ranks r rank r).pc.waiting = none; rw [set_self]; exact hthen)
    fun u hu => by change (set s.ranks r rank u).pc.waiting = _; rw [set_ne _ _ hu]
  ranks := set_cases (P := fun (u : Fin n) (rank : Rank α) => PcOk fences mine rank.results.length
    s.barrier.generation slots u rank.snap rank.pc) hrank fun u hu => (h.ranks u).other (hslots u hu) hnone
  published := hpublished
  results := set_cases (P := fun (_ : Fin n) (rank : Rank α) => ∀ k snap, rank.results[k]? = some snap →
    snap = partialsOf mine k) hresults fun u _ => h.results u

/-- The last rank opens the barrier: all have brought what it is for. -/
theorem opens (h : Inv fences mine s) {i : Nat} (hpos : 0 < fences) (hpc : (s.ranks r).pc = .arrive i)
    (hlast : ¬ s.barrier.count + 1 < n) :
    Inv fences mine { s.at r ((s.ranks r).pass fences r i) with barrier := ⟨0, s.barrier.generation + 1⟩ } := by
  have hcard : ¬ s.barrier.count + 1 < Fintype.card (Fin n) := by
    rw [Fintype.card_fin]
    exact hlast
  have hmine := h.ranks r
  rw [hpc] at hmine
  obtain ⟨hG, hbrings⟩ := hmine
  have hnow : (s.ranks r).pc.waiting = none := by rw [hpc]; rfl
  have hothers : ∀ u, u ≠ r → (s.ranks u).pc.waiting = some s.barrier.generation := h.counts.others hcard hnow
  have hbrought : ∀ u, (s.ranks u).results.length = (s.ranks r).results.length ∧
      Brings fences mine (s.ranks r).results.length i s.partials u (s.ranks u).snap := by
    intro u
    by_cases hu : u = r
    · rw [hu]
      exact ⟨rfl, hbrings⟩
    · obtain ⟨hk, -, hb⟩ := (h.ranks u).brought (hothers u hu) hbrings.known hG
      rw [hk] at hb
      exact ⟨hk, hb⟩
  have hfinds : ∀ u, Finds fences mine (s.ranks r).results.length i s.partials u (s.ranks u).snap := by
    intro u
    have hzero := (hbrought ⟨0, by have hr := r.isLt; omega⟩).2
    exact ⟨hbrings.known, (hbrought u).2.read, fun hi => hzero.emptied hi rfl u⟩
  refine ⟨?_, ?_, ?_, ?_⟩
  · refine h.counts.open_ hcard hnow ?_ ?_
    · change (set s.ranks r _ r).pc.waiting = none
      rw [set_self]
      exact pass_waiting ..
    · intro u hu
      change (set s.ranks r _ u).pc.waiting = _
      rw [set_ne _ _ hu]
  · refine set_cases (P := fun (u : Fin n) (rank : Rank α) => PcOk fences mine rank.results.length
      (s.barrier.generation + 1) s.partials u rank.snap rank.pc)
      (pass_ok rfl hpos (congrArg Nat.succ hG) (hfinds r)) ?_
    intro u hu
    obtain ⟨hk, hwait, -⟩ := (h.ranks u).brought (hothers u hu) hbrings.known hG
    rw [hwait, hk]
    exact ⟨hG, .inr ⟨congrArg Nat.succ hG, hfinds u⟩⟩
  · intro k hk q
    change s.barrier.generation + 1 = base fences k + 1 at hk
    obtain ⟨rfl, hzero⟩ := base_unique (i := 0) (by omega) hbrings.known ((Nat.succ.inj hk).symm.trans hG)
    exact (hbrought q).2.published hzero.symm
  · exact set_cases (P := fun (_ : Fin n) (rank : Rank α) => ∀ k snap, rank.results[k]? = some snap →
      snap = partialsOf mine k) (pass_results rfl (hfinds r) (h.results r)) fun u _ => h.results u

/-- A rank that does not find the others yet. -/
theorem sleeps (h : Inv fences mine s) {i : Nat} (hpc : (s.ranks r).pc = .arrive i) (hlt : s.barrier.count + 1 < n) :
    Inv fences mine { s.at r { s.ranks r with pc := .wait i s.barrier.generation } with
      barrier := ⟨s.barrier.count + 1, s.barrier.generation⟩ } := by
  have hmine := h.ranks r
  rw [hpc] at hmine
  refine ⟨?_, ?_, h.published, ?_⟩
  · refine h.counts.wait (by rw [Fintype.card_fin]; exact hlt) (by rw [hpc]; rfl) ?_ ?_
    · change (set s.ranks r _ r).pc.waiting = _
      rw [set_self]
      rfl
    · intro u hu
      change (set s.ranks r _ u).pc.waiting = _
      rw [set_ne _ _ hu]
  · exact set_cases (P := fun (u : Fin n) (rank : Rank α) => PcOk fences mine rank.results.length
      s.barrier.generation s.partials u rank.snap rank.pc) ⟨hmine.1, .inl hmine⟩ fun u _ => h.ranks u
  · exact set_cases (P := fun (_ : Fin n) (rank : Rank α) => ∀ k snap, rank.results[k]? = some snap →
      snap = partialsOf mine k) (h.results r) fun u _ => h.results u

theorem step_keeps (h : Inv fences mine s) (hpos : 0 < fences) (hs : step fences mine s r = some s') :
    Inv fences mine s' := by
  have hmine := h.ranks r
  unfold step at hs
  split at hs
  · rename_i hpc
    cases hs
    rw [hpc] at hmine
    obtain ⟨hG, -⟩ := hmine
    refine h.goes (by rw [hpc]; nofun) rfl ⟨hG, by omega, fun _ => set_self .., by omega, by omega⟩
      (fun u hu _ => set_ne _ _ hu) ?_ ?_ (h.results r)
    · intro hphase
      exact absurd hphase (not_emptying (i := 0) (by omega) hG)
    · intro k hk
      have heq := (base_unique (i := 0) (by omega) (by omega) (hG.symm.trans hk)).2
      omega
  · rename_i i hpc
    split at hs
    · rename_i barrier generation harrive
      cases hs
      unfold Barrier.arrive at harrive
      split at harrive
      · rename_i hlt
        cases harrive
        exact h.sleeps hpc hlt
      · cases harrive
    · rename_i barrier harrive
      cases hs
      unfold Barrier.arrive at harrive
      split at harrive
      · cases harrive
      · rename_i hlast
        cases harrive
        exact h.opens hpos hpc hlast
  · rename_i i g hpc
    split at hs
    · cases hs
    · rename_i hmoved
      cases hs
      rw [hpc] at hmine
      obtain ⟨hg, ⟨hG, -⟩ | ⟨hG, hfinds⟩⟩ := hmine
      · exact absurd (hG.trans hg.symm) hmoved
      · exact h.goes (by rw [hpc]; exact fun heq => hmoved (Option.some.inj heq).symm) (pass_waiting ..)
          (pass_ok rfl hpos hG hfinds) (fun _ _ _ => rfl) (fun _ hall => hall) h.published
          (pass_results rfl hfinds (h.results r))
  · rename_i hpc
    rw [hpc] at hmine
    have hread := mapM_published (h.published _ hmine)
    rw [hread] at hs
    cases hs
    exact h.goes (by rw [hpc]; nofun) rfl ⟨hmine, by omega, by omega, fun _ => rfl, by omega⟩
      (fun _ _ _ => rfl) (fun _ hall => hall) h.published
      (h.results r)
  · rename_i hpc
    cases hs
    rw [hpc] at hmine
    obtain ⟨hG, hsnap, -⟩ := hmine
    refine h.goes (by rw [hpc]; nofun) rfl ⟨hG, by omega, by omega, fun _ => hsnap, fun _ _ _ => rfl⟩ ?_
      (fun _ _ _ => rfl) ?_ (h.results r)
    · intro u _ hphase
      exact absurd ⟨_, hG⟩ hphase
    · intro k hk
      have heq := (base_unique (by omega) (by omega) (hG.symm.trans hk)).2
      omega
  · cases hs

theorem initial (hn : 0 < n) (hinit : (coordinator fences mine).init s) : Inv fences mine s := by
  cases hinit
  have : Nonempty (Fin n) := ⟨⟨0, hn⟩⟩
  refine ⟨Barrier.counts_start, fun r => ⟨rfl, rfl⟩, ?_, ?_⟩
  · intro k hk
    change 0 = base fences k + 1 at hk
    omega
  · intro r k snap hk
    cases hk

/-- Some rank is not held up by the barrier. -/
theorem enabled (h : Inv fences mine s) : ∃ r s', step fences mine s r = some s' := by
  obtain ⟨r, hr⟩ := h.counts.runs
  refine ⟨r, ?_⟩
  have hmine := h.ranks r
  unfold step
  split
  · exact ⟨_, rfl⟩
  · split <;> exact ⟨_, rfl⟩
  · rename_i i g hpc
    split
    · rename_i hsame
      rw [hpc, hsame] at hr
      exact absurd rfl hr
    · exact ⟨_, rfl⟩
  · split <;> exact ⟨_, rfl⟩
  · exact ⟨_, rfl⟩
  · rename_i hpc
    rw [hpc] at hmine
    exact hmine.elim

end Inv

/-- One call of two ranks, with the fence of the pulls. -/
def oneCall : List (Fin 2) := [0, 0, 1, 1, 1, 1, 0, 0, 0, 0, 1, 1, 0, 0, 0, 1, 1, 0]

def tenths (r : Fin 2) (k : Nat) : Nat := 10 * r + k

def afterCall : State Nat 2 := ((coordinator 2 tenths).runFrom start oneCall).getD start

end Flambeau.Forward.ArCoordinator
