import Flambeau.Runtime.CollectiveRuns

namespace Flambeau.Runtime.Collective
open Flambeau.Systems

variable {n : Nat} {F : Floats} {calls : List Call} {inputs : Fin n → Nat → Buffers} {s : State n} {r : Fin n} {c : Call}

/-- What the calls of a rank came to. -/
def ResultsOk (F : Floats) (calls : List Call) (inputs : Fin n → Nat → Buffers) (r : Fin n) (rank : Rank) : Prop :=
  ∀ k o, rank.results[k]? = some o → ∃ c, calls[k]? = some c ∧ o = defined F c (fun q => inputs q k) r

theorem ResultsOk.finish {rank : Rank} (h : ResultsOk F calls inputs r rank) (hc : calls[rank.results.length]? = some c)
    (hresult : result = defined F c (fun q => inputs q rank.results.length) r) :
    ResultsOk F calls inputs r (rank.finish result) := by
  intro k o hk
  change (rank.results ++ [result])[k]? = some o at hk
  by_cases hlt : k < rank.results.length
  · rw [List.getElem?_append_left hlt] at hk
    exact h k o hk
  · rw [List.getElem?_append_right (by omega)] at hk
    have hzero : k - rank.results.length = 0 := by
      apply Decidable.byContradiction
      intro hne
      rw [List.getElem?_eq_none (by rw [List.length_singleton]; omega)] at hk
      cases hk
    have hk' : k = rank.results.length := by omega
    rw [hzero] at hk
    cases hk
    rw [hk']
    exact ⟨c, hc, hresult⟩

section
variable {rank : Rank} {G : Nat} {slot : Bytes}

/-- In a call that passes its checks. -/
theorem RankOk.inCall (h : RankOk F calls inputs G slot r rank) (hc : calls[rank.results.length]? = some c)
    (hpc : rank.pc ≠ .entry) : Passes calls inputs rank.results.length ∧
      PcOk F inputs c rank.results.length (before calls inputs rank.results.length) G slot r rank.buf rank.pc := by
  rcases h with ⟨hentry, -⟩ | ⟨c', hc', hpass, hok⟩
  · exact absurd hentry hpc
  · rw [hc] at hc'
    cases hc'
    exact ⟨hpass, hok⟩

/-- Behind the first barrier. -/
theorem pass_first (hc : calls[rank.results.length]? = some c) (hpass : Passes calls inputs rank.results.length)
    (hG : G = before calls inputs rank.results.length + 1) (hbuf : rank.buf = output c (inputs r rank.results.length)) :
    RankOk F calls inputs G slot r (rank.pass c r false) := by
  unfold Rank.pass
  rw [if_neg Bool.false_ne_true]
  by_cases hw : c.op.works r = true
  · rw [if_pos hw]
    exact .inr ⟨c, hc, hpass, hG, hw, hbuf⟩
  · have hop : c.op = .allReduce := by
      unfold Collective.works at hw
      cases ho : c.op with
      | allReduce => rfl
      | allGather | allToAll | broadcast =>
        rw [ho] at hw
        exact absurd rfl hw
    rw [if_neg hw]
    refine .inr ⟨c, hc, hpass, hG, ?_⟩
    unfold Filled
    rw [if_pos hop]
    exact hbuf

/-- Behind the second barrier. -/
theorem pass_second (hc : calls[rank.results.length]? = some c) (hpass : Passes calls inputs rank.results.length)
    (hG : G = before calls inputs rank.results.length + 2) (hfill : Filled F inputs c rank.results.length r rank.buf)
    (hred : c.op = .allReduce → slot = reduced F c.cfg (sends inputs rank.results.length)) :
    RankOk F calls inputs G slot r (rank.pass c r true) := by
  unfold Rank.pass
  rw [if_pos rfl]
  have hdone : RankOk F calls inputs G slot r (rank.finish (.ok rank.buf)) := by
    refine .inl ⟨rfl, ?_⟩
    change G = before calls inputs (rank.results ++ [_]).length
    rw [List.length_append, List.length_singleton, before_passes hpass]
    exact hG
  cases ho : c.op with
  | allReduce =>
    unfold Filled at hfill
    rw [if_pos ho] at hfill
    exact .inr ⟨c, hc, hpass, ho, hG, hred ho, hfill⟩
  | allGather | allToAll | broadcast => exact hdone

theorem pass_results (h : ResultsOk F calls inputs r rank) (hc : calls[rank.results.length]? = some c)
    (hfill : second = true → Filled F inputs c rank.results.length r rank.buf) :
    ResultsOk F calls inputs r (rank.pass c r second) := by
  unfold Rank.pass
  cases second with
  | false =>
    rw [if_neg Bool.false_ne_true]
    split <;> exact h
  | true =>
    rw [if_pos rfl]
    have hfill := hfill rfl
    unfold Filled at hfill
    cases ho : c.op with
    | allReduce => exact h
    | allGather | allToAll | broadcast =>
      rw [if_neg (by rw [ho]; nofun)] at hfill
      exact h.finish hc hfill.symm

theorem pass_waiting (rank : Rank) (c : Call) (me : Nat) (second : Bool) : (rank.pass c me second).pc.waiting = none := by
  unfold Rank.pass
  split
  · split <;> rfl
  · split <;> rfl

theorem pass_holds (rank : Rank) (c : Call) (me : Nat) (second : Bool) : (rank.pass c me second).pc.holds = false := by
  unfold Rank.pass
  split
  · split <;> rfl
  · split <;> rfl

/-- Rank 0 has its work still to do. -/
theorem pass_behind (hop : c.op = .allReduce) : (rank.pass c 0 false).pc.behindMiddle = false := by
  unfold Rank.pass
  rw [if_neg Bool.false_ne_true, if_pos (by rw [hop]; rfl)]
  rfl

end

/-! Rank 0's work. -/

theorem reduced_set {ranks : Fin n → Rank} {rank : Rank}
    (h : r.val = 0 → rank.pc.behindMiddle = (ranks r).pc.behindMiddle) : Reduced (set ranks r rank) ↔ Reduced ranks := by
  unfold Reduced
  refine exists_congr fun z => and_congr_right fun hz => ?_
  by_cases hzr : z = r
  · subst hzr
    rw [set_self, h hz]
  · rw [set_ne _ _ hzr]

theorem SlotsOk.keep {slots : Fin n → Bytes} {ranks ranks' : Fin n → Rank} (h : SlotsOk F inputs c k slots ranks)
    (hsame : c.op = .allReduce → (Reduced ranks' ↔ Reduced ranks)) : SlotsOk F inputs c k slots ranks' := by
  constructor
  · intro hop hred
    exact h.1 hop ((hsame hop).mp hred)
  · intro hnot
    exact h.2 fun ⟨hop, hred⟩ => hnot ⟨hop, (hsame hop).mpr hred⟩

namespace Inv

theorem resultsOk (hi : Inv F calls inputs s) (r : Fin n) : ResultsOk F calls inputs r (s.ranks r) := hi.results r

/-- A rank goes on without the barrier. -/
theorem move (hi : Inv F calls inputs s) {rank : Rank} {slots : Fin n → Bytes} {lock : Option (Fin n)}
    (hguard : Guards (fun rank : Rank => rank.pc.holds) lock (set s.ranks r rank))
    (hnow : (s.ranks r).pc.waiting ≠ some s.barrier.generation) (hthen : rank.pc.waiting = none)
    (hok : RankOk F calls inputs s.barrier.generation (slots r) r rank)
    (hslots : (∀ u, u ≠ r → slots u = s.slots u) ∨ s.barrier.generation % 2 = 1)
    (hbetween : ∀ k c, calls[k]? = some c → Passes calls inputs k → s.barrier.generation = before calls inputs k + 1 →
      SlotsOk F inputs c k slots (set s.ranks r rank))
    (hres : ResultsOk F calls inputs r rank) :
    Inv F calls inputs { s with slots, lock, ranks := set s.ranks r rank } where
  guards := hguard
  sound := hi.sound
  counts := by
    refine hi.counts.pass (t := r) hnow ?_ ?_
    · dsimp only
      rw [set_self, hthen]
    · intro u hu
      dsimp only
      rw [set_ne _ _ hu]
  ranks := by
    intro u
    by_cases hu : u = r
    · subst hu
      dsimp only
      rw [set_self]
      exact hok
    · dsimp only
      rw [set_ne _ _ hu]
      rcases hslots with hsame | hodd
      · rw [hsame u hu]
        exact hi.ranks u
      · exact (hi.ranks u).between hodd
  between := hbetween
  results := by
    intro u
    by_cases hu : u = r
    · subst hu
      dsimp only
      rw [set_self]
      exact hres
    · dsimp only
      rw [set_ne _ _ hu]
      exact hi.results u

/-- The slots stay as they are. -/
theorem moveCalm (hi : Inv F calls inputs s) {rank : Rank} {lock : Option (Fin n)}
    (hguard : Guards (fun rank : Rank => rank.pc.holds) lock (set s.ranks r rank))
    (hnow : (s.ranks r).pc.waiting ≠ some s.barrier.generation) (hthen : rank.pc.waiting = none)
    (hok : RankOk F calls inputs s.barrier.generation (s.slots r) r rank)
    (hbehind : ∀ k c, calls[k]? = some c → Passes calls inputs k → s.barrier.generation = before calls inputs k + 1 →
      c.op = .allReduce → r.val = 0 → rank.pc.behindMiddle = (s.ranks r).pc.behindMiddle)
    (hres : ResultsOk F calls inputs r rank) :
    Inv F calls inputs { s with lock, ranks := set s.ranks r rank } :=
  hi.move hguard hnow hthen hok (.inl fun _ _ => rfl)
    (fun k c hc hpass hG => (hi.between k c hc hpass hG).keep fun hop => reduced_set (hbehind k c hc hpass hG hop)) hres

/-- Only the program counter changes, and not what it says of the work between the barriers. -/
theorem go (hi : Inv F calls inputs s) {pc : Pc} {lock : Option (Fin n)}
    (hguard : Guards (fun rank : Rank => rank.pc.holds) lock (set s.ranks r { s.ranks r with pc }))
    (hnow : (s.ranks r).pc.waiting = none) (hthen : pc.waiting = none)
    (hok : RankOk F calls inputs s.barrier.generation (s.slots r) r { s.ranks r with pc })
    (hbehind : pc.behindMiddle = (s.ranks r).pc.behindMiddle) : Inv F calls inputs { s.go r pc with lock } :=
  hi.moveCalm hguard (by rw [hnow]; nofun) hthen hok (fun _ _ _ _ _ _ _ => hbehind) (hi.resultsOk r)

/-- With the lock. -/
theorem acquire (hi : Inv F calls inputs s) {pc : Pc} (h : s.acquire r pc = some s') (hholds : pc.holds = true)
    (hnow : (s.ranks r).pc.waiting = none) (hthen : pc.waiting = none)
    (hok : RankOk F calls inputs s.barrier.generation (s.slots r) r { s.ranks r with pc })
    (hbehind : pc.behindMiddle = (s.ranks r).pc.behindMiddle) : Inv F calls inputs s' := by
  unfold State.acquire at h
  cases hlock : s.lock with
  | some q =>
    rw [hlock] at h
    cases h
  | none =>
    rw [hlock] at h
    dsimp only at h
    rw [hi.sound, if_neg Bool.false_ne_true] at h
    cases h
    have hguards := hi.guards
    rw [hlock] at hguards
    exact hi.go (hguards.take hholds) hnow hthen hok hbehind

/-- Without it again. -/
theorem release (hi : Inv F calls inputs s) {pc : Pc} (hheld : (s.ranks r).pc.holds = true) (hholds : pc.holds = false)
    (hnow : (s.ranks r).pc.waiting = none) (hthen : pc.waiting = none)
    (hok : RankOk F calls inputs s.barrier.generation (s.slots r) r { s.ranks r with pc })
    (hbehind : pc.behindMiddle = (s.ranks r).pc.behindMiddle) : Inv F calls inputs { s.go r pc with lock := none } :=
  hi.go (hi.guards.drop hheld hholds) hnow hthen hok hbehind

/-- Between two barriers, where a call has neither been passed to nor left. -/
theorem even (hbase : s.barrier.generation % 2 = 0) : ¬ s.barrier.generation = before calls inputs k + 1 := by
  have heven := @before_even _ calls inputs k
  omega

theorem entry (hi : Inv F calls inputs s) (hmatch : Matching calls inputs) (hpc : (s.ranks r).pc = .entry)
    (hc : calls[(s.ranks r).results.length]? = some c)
    (h : (match check n c (inputs r (s.ranks r).results.length) with
      | .error e => some (s.at r ((s.ranks r).finish (.error e)))
      | .ok _ =>
        some (s.at r { s.ranks r with
          pc := if c.op.deposits r then .deposit .wanted else .arrive false
          buf := output c (inputs r (s.ranks r).results.length) })) = some s') : Inv F calls inputs s' := by
  have hG : s.barrier.generation = before calls inputs (s.ranks r).results.length := by
    rcases hi.ranks r with ⟨-, hG⟩ | ⟨c', -, -, hok⟩
    · exact hG
    · rw [hpc] at hok
      exact hok.elim
  have heven : s.barrier.generation % 2 = 0 := by rw [hG]; exact before_even _
  have hfree : (s.ranks r).pc.holds = false := by rw [hpc]; rfl
  have hnow : (s.ranks r).pc.waiting ≠ some s.barrier.generation := by rw [hpc]; nofun
  cases hcheck : check n c (inputs r (s.ranks r).results.length) with
  | error e =>
    rw [hcheck] at h
    cases h
    have hfails : ¬ Passes calls inputs (s.ranks r).results.length := by
      rintro ⟨c', hc', hall⟩
      rw [hc] at hc'
      cases hc'
      rw [hall r] at hcheck
      cases hcheck
    refine hi.moveCalm (hi.guards.keep hfree.symm) hnow rfl (.inl ⟨rfl, ?_⟩) (fun k _ _ _ hk => absurd hk (even heven))
      ((hi.resultsOk r).finish hc ?_)
    · change _ = before calls inputs (_ ++ [_]).length
      rw [List.length_append, List.length_singleton, before_fails hfails]
      exact hG
    · rw [defined, hcheck]
      rfl
  | ok u =>
    rw [hcheck] at h
    cases h
    have hpass : Passes calls inputs (s.ranks r).results.length := by
      refine ⟨c, hc, ?_⟩
      rcases hmatch _ c hc with hall | hnone
      · exact hall
      · obtain ⟨e, he⟩ := hnone r
        rw [hcheck] at he
        cases he
    by_cases hd : c.op.deposits r = true
    · rw [if_pos hd]
      exact hi.moveCalm (hi.guards.keep hfree.symm) hnow rfl (.inr ⟨c, hc, hpass, hG, rfl, hd, trivial⟩)
        (fun k _ _ _ hk => absurd hk (even heven)) (hi.resultsOk r)
    · rw [if_neg hd]
      exact hi.moveCalm (hi.guards.keep hfree.symm) hnow rfl (.inr ⟨c, hc, hpass, hG, rfl, fun hd' => absurd hd' hd⟩)
        (fun k _ _ _ hk => absurd hk (even heven)) (hi.resultsOk r)

theorem deposit (hi : Inv F calls inputs s) (hpc : (s.ranks r).pc = .deposit .held)
    (hc : calls[(s.ranks r).results.length]? = some c) :
    Inv F calls inputs
      { s.go r (.deposit .done) with slots := set s.slots r (inputs r (s.ranks r).results.length).send } := by
  obtain ⟨hpass, hok⟩ := (hi.ranks r).inCall hc (by rw [hpc]; nofun)
  rw [hpc] at hok
  obtain ⟨hG, hbuf, hd, -⟩ := hok
  have heven : s.barrier.generation % 2 = 0 := by rw [hG]; exact before_even _
  refine hi.move (hi.guards.keep (by rw [hpc]; rfl)) (by rw [hpc]; nofun) rfl ?_ (.inl fun u hu => set_ne _ _ hu)
    (fun k _ _ _ hk => absurd hk (even heven)) (hi.resultsOk r)
  rw [set_self]
  exact .inr ⟨c, hc, hpass, hG, hbuf, hd, rfl⟩

/-- The work between the barriers, which does not fail. -/
theorem middle (hi : Inv F calls inputs s) (hpc : (s.ranks r).pc = .middle .held)
    (hc : calls[(s.ranks r).results.length]? = some c)
    (h : (match Collective.middle F n c r (List.ofFn s.slots) (s.ranks r).buf with
      | none => some (s.panic r)
      | some (slots, buf) =>
        some { s.at r { s.ranks r with pc := .middle .done, buf } with slots := fun q => slots[q.val]?.getD [] }) =
        some s') : Inv F calls inputs s' := by
  obtain ⟨hpass, hok⟩ := (hi.ranks r).inCall hc (by rw [hpc]; nofun)
  rw [hpc] at hok
  obtain ⟨hG, hworks, hbuf⟩ := hok
  have hslots := hi.between _ c hc hpass hG
  have hodd : s.barrier.generation % 2 = 1 := by
    have heven := @before_even _ calls inputs (s.ranks r).results.length
    omega
  have hkeep : ∀ buf, Guards (fun rank : Rank => rank.pc.holds) s.lock
      (Systems.set s.ranks r { s.ranks r with pc := .middle .done, buf }) := fun _ => hi.guards.keep (by rw [hpc]; rfl)
  have hnow : (s.ranks r).pc.waiting ≠ some s.barrier.generation := by rw [hpc]; nofun
  have hcall : ∀ k c', calls[k]? = some c' → Passes calls inputs k → s.barrier.generation = before calls inputs k + 1 →
      k = (s.ranks r).results.length ∧ c' = c := by
    intro k c' hc' hpass' hk
    have hsame : k = (s.ranks r).results.length := before_inj hpass' hpass (by omega)
    rw [hsame, hc] at hc'
    cases hc'
    exact ⟨hsame, rfl⟩
  obtain ⟨c', hc', hchecks⟩ := hpass
  rw [hc] at hc'
  cases hc'
  rw [hbuf] at h
  by_cases hop : c.op = .allReduce
  · have hzero : r.val = 0 := by
      rw [hop] at hworks
      exact of_decide_eq_true hworks
    have hfresh : ¬ Reduced s.ranks := by
      rintro ⟨z, hz, hbehind⟩
      have hzr : z = r := Fin.ext (by omega)
      rw [hzr, hpc] at hbehind
      cases hbehind
    have hall : List.ofFn s.slots = sends inputs (s.ranks r).results.length :=
      ofFn_eq_sends fun q => hslots.2 (fun ⟨_, hred⟩ => hfresh hred) q (by rw [hop]; rfl)
    have hne : sends inputs (s.ranks r).results.length ≠ [] := by
      intro hnil
      have hlen : (sends inputs (s.ranks r).results.length).length = n := List.length_ofFn
      rw [hnil, List.length_nil] at hlen
      have hlt := r.isLt
      omega
    have hreduce := reduceSlots_eq F c.cfg hne (by
      intro b hb
      obtain ⟨q, rfl⟩ := sends_mem hb
      exact check_send (hchecks q) (by rw [hop]; nofun))
    unfold Collective.middle at h
    rw [hop] at h
    dsimp only at h
    rw [hall, hreduce] at h
    cases h
    have hslot : ∀ q : Fin n, ((sends inputs (s.ranks r).results.length).map fun _ =>
        reduced F c.cfg (sends inputs (s.ranks r).results.length))[q.val]?.getD [] =
        reduced F c.cfg (sends inputs (s.ranks r).results.length) := by
      intro q
      rw [List.getElem?_map, sends_get]
      rfl
    refine hi.move (hkeep _) hnow rfl (.inr ⟨c, hc, ⟨c, hc, hchecks⟩, hG, hworks, ?_⟩) (.inr hodd) ?_ (hi.resultsOk r)
    · dsimp only
      unfold Filled
      rw [if_pos hop]
    · intro k c' hc' hpass' hk
      obtain ⟨rfl, rfl⟩ := hcall k c' hc' hpass' hk
      refine ⟨fun _ _ => hslot, fun hnot => absurd ⟨hop, ⟨r, hzero, ?_⟩⟩ hnot⟩
      rw [set_self]
      rfl
  · obtain ⟨buf, hmid, hdef⟩ := middle_fills (F := F) (r := r) hchecks hop (hslots.2 fun ⟨hop', _⟩ => hop hop')
    rw [hmid] at h
    cases h
    have hback : (fun q : Fin n => (List.ofFn s.slots)[q.val]?.getD []) = s.slots := by
      funext q
      rw [List.getElem?_ofFn, dif_pos q.isLt]
      rfl
    rw [hback]
    refine hi.move (hkeep _) hnow rfl (.inr ⟨c, hc, ⟨c, hc, hchecks⟩, hG, hworks, ?_⟩) (.inr hodd) ?_ (hi.resultsOk r)
    · dsimp only
      unfold Filled
      rw [if_neg hop]
      exact hdef
    · intro k c' hc' hpass' hk
      obtain ⟨rfl, rfl⟩ := hcall k c' hc' hpass' hk
      exact ⟨fun hop' => absurd hop' hop, fun _ => hslots.2 fun ⟨hop', _⟩ => hop hop'⟩

/-- The copy behind the last barrier, of the rank's own slot. -/
theorem last (hi : Inv F calls inputs s) (hpc : (s.ranks r).pc = .last .held)
    (hc : calls[(s.ranks r).results.length]? = some c)
    (h : (match copyFromSlice (s.ranks r).buf (s.slots r) with
      | none => some (s.panic r)
      | some buf => some (s.at r { s.ranks r with pc := .last .done, buf })) = some s') : Inv F calls inputs s' := by
  obtain ⟨hpass, hok⟩ := (hi.ranks r).inCall hc (by rw [hpc]; intro h; cases h)
  rw [hpc] at hok
  obtain ⟨hop, hG, hslot, hbuf⟩ := hok
  obtain ⟨c', hc', hchecks⟩ := hpass
  rw [hc] at hc'
  cases hc'
  have hsend : (s.ranks r).buf = (inputs r (s.ranks r).results.length).send := by
    refine hbuf.trans ?_
    unfold output
    rw [hop]
  have hlen : (s.ranks r).buf.length = (s.slots r).length := by
    rw [hsend, hslot, reduced_length, check_send (hchecks r) (by rw [hop]; intro h; cases h)]
  rw [copyFromSlice, if_pos hlen] at h
  cases h
  exact hi.moveCalm (hi.guards.keep (by rw [hpc]; rfl)) (by rw [hpc]; intro h; cases h) rfl
    (.inr ⟨c, hc, ⟨c, hc, hchecks⟩, hop, hG, hslot, hslot⟩) (fun _ _ _ _ _ _ _ => by rw [hpc]; rfl) (hi.resultsOk r)

theorem returns (hi : Inv F calls inputs s) (hpc : (s.ranks r).pc = .last .done)
    (hc : calls[(s.ranks r).results.length]? = some c) :
    Inv F calls inputs { s.at r ((s.ranks r).finish (.ok (s.ranks r).buf)) with lock := none } := by
  obtain ⟨hpass, hok⟩ := (hi.ranks r).inCall hc (by rw [hpc]; nofun)
  rw [hpc] at hok
  obtain ⟨hop, hG, -, hbuf⟩ := hok
  have heven : s.barrier.generation % 2 = 0 := by
    have hbase := @before_even _ calls inputs (s.ranks r).results.length
    omega
  refine hi.moveCalm (hi.guards.drop (by rw [hpc]; rfl) rfl) (by rw [hpc]; nofun) rfl (.inl ⟨rfl, ?_⟩)
    (fun k _ _ _ hk => absurd hk (even heven)) ((hi.resultsOk r).finish hc ?_)
  · change _ = before calls inputs (_ ++ [_]).length
    rw [List.length_append, List.length_singleton, before_passes hpass]
    exact hG
  · obtain ⟨c', hc', hchecks⟩ := hpass
    rw [hc] at hc'
    cases hc'
    rw [defined, hchecks r, hop, hbuf]
    rfl

/-- Leaving a barrier that has opened. -/
theorem leave (hi : Inv F calls inputs s) (hpc : (s.ranks r).pc = .wait second g)
    (hc : calls[(s.ranks r).results.length]? = some c) (hopen : s.barrier.generation ≠ g) :
    Inv F calls inputs (s.at r ((s.ranks r).pass c r second)) := by
  obtain ⟨hpass, hok⟩ := (hi.ranks r).inCall hc (by rw [hpc]; nofun)
  rw [hpc] at hok
  have hnow : (s.ranks r).pc.waiting ≠ some s.barrier.generation := by
    rw [hpc]
    intro heq
    cases heq
    exact hopen rfl
  have hguard : Guards (fun rank : Rank => rank.pc.holds) s.lock (set s.ranks r ((s.ranks r).pass c r second)) :=
    hi.guards.keep (by rw [pass_holds, hpc]; rfl)
  cases second with
  | false =>
    obtain ⟨rfl, hbuf, ⟨hG, -⟩ | hG⟩ := hok
    · exact absurd hG hopen
    refine hi.moveCalm hguard hnow (pass_waiting _ _ _ _) (pass_first hc hpass hG hbuf) ?_
      (pass_results (hi.resultsOk r) hc nofun)
    intro k c' hc' hpass' hk hop hzero
    have hsame : k = (s.ranks r).results.length := before_inj hpass' hpass (by omega)
    rw [hsame, hc] at hc'
    cases hc'
    rw [hzero, pass_behind hop, hpc]
    rfl
  | true =>
    obtain ⟨rfl, hfill, hG | ⟨hG, hred⟩⟩ := hok
    · exact absurd hG hopen
    have heven : s.barrier.generation % 2 = 0 := by
      have hbase := @before_even _ calls inputs (s.ranks r).results.length
      omega
    exact hi.moveCalm hguard hnow (pass_waiting _ _ _ _) (pass_second hc hpass hG hfill hred)
      (fun k _ _ _ hk => absurd hk (even heven)) (pass_results (hi.resultsOk r) hc fun _ => hfill)

/-- When the barrier opens behind the work, rank 0 has reduced the slots. -/
theorem reducedAll (hi : Inv F calls inputs s) (hpc : (s.ranks r).pc = .arrive true)
    (hothers : ∀ u, u ≠ r → (s.ranks u).pc.waiting = some s.barrier.generation)
    (hc : calls[k]? = some c) (hpass : Passes calls inputs k) (hG : s.barrier.generation = before calls inputs k + 1)
    (hop : c.op = .allReduce) (q : Fin n) : s.slots q = reduced F c.cfg (sends inputs k) := by
  refine (hi.between k c hc hpass hG).1 hop ⟨⟨0, Nat.zero_lt_of_lt q.isLt⟩, rfl, ?_⟩ q
  generalize (⟨0, Nat.zero_lt_of_lt q.isLt⟩ : Fin n) = z
  by_cases hz : z = r
  · rw [hz, hpc]
    rfl
  have hwait := hothers z hz
  rcases hi.ranks z with ⟨hentry, -⟩ | ⟨c', -, -, hok⟩
  · rw [hentry] at hwait
    cases hwait
  cases hpcz : (s.ranks z).pc with
  | wait second g =>
    rw [hpcz] at hwait hok
    cases hwait
    cases second with
    | true => rfl
    | false =>
      have hbase := @before_even _ calls inputs (s.ranks z).results.length
      have heven := @before_even _ calls inputs k
      have hg := hok.1
      omega
  | entry | panicked | deposit | arrive | middle | last =>
    rw [hpcz] at hwait
    cases hwait

/-- When the barrier opens behind the deposits, they are all there. -/
theorem deposited (hi : Inv F calls inputs s) (hothers : ∀ u, u ≠ r → (s.ranks u).pc.waiting = some s.barrier.generation)
    (hpass : Passes calls inputs k) (hG : s.barrier.generation = before calls inputs k) (hc : calls[k]? = some c)
    {u : Fin n} (hu : u ≠ r) :
    (c.op.deposits u = true → s.slots u = (inputs u k).send) ∧ (s.ranks u).pc.behindMiddle = false := by
  have hwait := hothers u hu
  rcases hi.ranks u with ⟨hentry, -⟩ | ⟨c', hc', hpass', hok⟩
  · rw [hentry] at hwait
    cases hwait
  have hbase := @before_even _ calls inputs (s.ranks u).results.length
  have heven := @before_even _ calls inputs k
  cases hpcu : (s.ranks u).pc with
  | wait second g =>
    rw [hpcu] at hwait hok
    cases hwait
    cases second with
    | true =>
      have hg := hok.1
      omega
    | false =>
      obtain ⟨hg, -, ⟨-, hdep⟩ | hG'⟩ := hok
      · have hsame : (s.ranks u).results.length = k := before_inj hpass' hpass (by omega)
        rw [hsame, hc] at hc'
        cases hc'
        rw [hsame] at hdep
        exact ⟨hdep, rfl⟩
      · omega
  | entry | panicked | deposit | arrive | middle | last =>
    rw [hpcu] at hwait
    cases hwait

theorem arrive (hi : Inv F calls inputs s) (hpc : (s.ranks r).pc = .arrive second)
    (hc : calls[(s.ranks r).results.length]? = some c) : Inv F calls inputs (s.arrive r c second) := by
  obtain ⟨hpass, hok⟩ := (hi.ranks r).inCall hc (by rw [hpc]; nofun)
  rw [hpc] at hok
  have hnow : (s.ranks r).pc.waiting = none := by rw [hpc]; rfl
  have hfree : (s.ranks r).pc.holds = false := by rw [hpc]; rfl
  unfold State.arrive Barrier.arrive
  by_cases hlt : s.barrier.count + 1 < n
  · rw [if_pos hlt]
    have hrank : RankOk F calls inputs s.barrier.generation (s.slots r) r
        { s.ranks r with pc := .wait second s.barrier.generation } := by
      refine .inr ⟨c, hc, hpass, ?_⟩
      cases second with
      | false => exact ⟨hok.1, hok.2.1, .inl ⟨hok.1, hok.2.2⟩⟩
      | true => exact ⟨hok.1, hok.2, .inl hok.1⟩
    refine ⟨hi.guards.keep hfree.symm, hi.sound, ?_, ?_, ?_, ?_⟩
    · refine hi.counts.wait (t := r) (by rw [Fintype.card_fin]; exact hlt) hnow ?_ ?_
      · dsimp only [State.go, State.at]
        rw [set_self]
        rfl
      · intro u hu
        dsimp only [State.go, State.at]
        rw [set_ne _ _ hu]
    · intro u
      dsimp only [State.go, State.at]
      by_cases hu : u = r
      · subst hu
        rw [set_self]
        exact hrank
      · rw [set_ne _ _ hu]
        exact hi.ranks u
    · intro k c' hc' hpass' hk
      refine (hi.between k c' hc' hpass' hk).keep fun _ => reduced_set fun _ => ?_
      rw [hpc]
      cases second <;> rfl
    · intro u
      dsimp only [State.go, State.at]
      by_cases hu : u = r
      · subst hu
        rw [set_self]
        exact hi.results u
      · rw [set_ne _ _ hu]
        exact hi.results u
  · rw [if_neg hlt]
    have hfull : ¬ s.barrier.count + 1 < Fintype.card (Fin n) := by rwa [Fintype.card_fin]
    have hothers := hi.counts.others hfull hnow
    refine ⟨hi.guards.keep (by rw [pass_holds, hfree]), hi.sound, ?_, ?_, ?_, ?_⟩
    · refine hi.counts.open_ (t := r) hfull hnow ?_ ?_
      · dsimp only [State.at]
        rw [set_self, pass_waiting]
      · intro u hu
        dsimp only [State.at]
        rw [set_ne _ _ hu]
    · intro u
      dsimp only [State.at]
      by_cases hu : u = r
      · subst hu
        rw [set_self]
        cases second with
        | false => exact pass_first hc hpass (by rw [hok.1]) hok.2.1
        | true =>
          refine pass_second hc hpass (by rw [hok.1]) hok.2 fun hop => ?_
          exact hi.reducedAll hpc hothers hc hpass hok.1 hop u
      · rw [set_ne _ _ hu]
        refine (hi.ranks u).opens (hothers u hu) fun c' hc' hpass' hG hop => ?_
        cases second with
        | false =>
          have hbase := @before_even _ calls inputs (s.ranks u).results.length
          have heven := @before_even _ calls inputs (s.ranks r).results.length
          have hG' := hok.1
          omega
        | true => exact hi.reducedAll hpc hothers hc' hpass' hG hop u
    · intro k c' hc' hpass' hk
      dsimp only [State.at] at hk ⊢
      have hG : s.barrier.generation = before calls inputs k := by omega
      have hbase := @before_even _ calls inputs (s.ranks r).results.length
      have heven := @before_even _ calls inputs k
      cases second with
      | true =>
        have hG' := hok.1
        omega
      | false =>
        obtain ⟨hG', -, hdep⟩ := hok
        have hsame : k = (s.ranks r).results.length := before_inj hpass' hpass (by omega)
        rw [hsame, hc] at hc'
        cases hc'
        constructor
        · rintro hop ⟨z, hz, hbehind⟩
          by_cases hzr : z = r
          · subst hzr
            rw [set_self, hz, pass_behind hop] at hbehind
            cases hbehind
          · rw [set_ne _ _ hzr, (hi.deposited hothers hpass hG' hc hzr).2] at hbehind
            cases hbehind
        · intro _ q hq
          rw [hsame]
          by_cases hqr : q = r
          · subst hqr
            exact hdep hq
          · exact (hi.deposited hothers hpass hG' hc hqr).1 hq
    · intro u
      dsimp only [State.at]
      by_cases hu : u = r
      · subst hu
        rw [set_self]
        refine pass_results (hi.resultsOk u) hc fun hs => ?_
        subst hs
        exact hok.2
      · rw [set_ne _ _ hu]
        exact hi.results u

end Inv
end Flambeau.Runtime.Collective
