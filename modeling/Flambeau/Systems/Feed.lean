namespace Flambeau.Systems

/-- Inputs one at a time: the state they leave and an output for each. -/
def feed (step : σ → ι → σ × ο) (s : σ) : List ι → σ × List ο
  | [] => (s, [])
  | x :: xs =>
    let rest := feed step (step s x).1 xs
    (rest.1, (step s x).2 :: rest.2)

@[simp] theorem feed_nil (step : σ → ι → σ × ο) (s : σ) : feed step s [] = (s, []) := rfl

theorem feed_cons (step : σ → ι → σ × ο) (s : σ) (x : ι) (xs : List ι) :
    feed step s (x :: xs) =
      ((feed step (step s x).1 xs).1, (step s x).2 :: (feed step (step s x).1 xs).2) := rfl

theorem feed_append (step : σ → ι → σ × ο) (s : σ) (xs ys : List ι) :
    feed step s (xs ++ ys) =
      ((feed step (feed step s xs).1 ys).1,
        (feed step s xs).2 ++ (feed step (feed step s xs).1 ys).2) := by
  induction xs generalizing s with
  | nil => rfl
  | cons x xs ih => rw [List.cons_append, feed_cons, ih, feed_cons, List.cons_append]

@[simp] theorem feed_length (step : σ → ι → σ × ο) (s : σ) (xs : List ι) :
    (feed step s xs).2.length = xs.length := by
  induction xs generalizing s with
  | nil => rfl
  | cons x xs ih => rw [feed_cons, List.length_cons, List.length_cons, ih]

theorem feed_map (step : σ → κ → σ × ο) (f : ι → κ) (s : σ) (xs : List ι) :
    feed step s (xs.map f) = feed (fun s x => step s (f x)) s xs := by
  induction xs generalizing s with
  | nil => rfl
  | cons x xs ih => rw [List.map_cons, feed_cons, ih, feed_cons]

theorem feed_congr {step step' : σ → ι → σ × ο} (s : σ) {xs : List ι}
    (h : ∀ s, ∀ x ∈ xs, step s x = step' s x) : feed step s xs = feed step' s xs := by
  induction xs generalizing s with
  | nil => rfl
  | cons x xs ih =>
    have hrest := ih (step s x).1 fun s y hy => h s y (List.mem_cons_of_mem _ hy)
    rw [feed_cons, feed_cons, hrest, h s x List.mem_cons_self]

/-- The inputs by their place. -/
theorem feed_range {step : σ → ι → σ × ο} {step' : σ → Nat → σ × ο} {xs : List ι}
    (h : ∀ s t, (ht : t < xs.length) → step' s t = step s (xs.get ⟨t, ht⟩)) (s : σ) :
    feed step' s (List.range xs.length) = feed step s xs := by
  induction xs generalizing step' s with
  | nil => rfl
  | cons x xs ih =>
    have hfirst : step' s 0 = step s x := h s 0 (Nat.zero_lt_succ _)
    rw [List.length_cons, List.range_succ_eq_map, feed_cons, feed_cons, feed_map, hfirst,
      ih fun s t ht => h s (t + 1) (Nat.succ_lt_succ ht)]

/-- A view of the state that the step respects. -/
theorem feed_view {step : σ → ι → σ × ο} {step' : τ → ι → τ × ο} {view : σ → τ}
    (h : ∀ s x, step' (view s) x = (view (step s x).1, (step s x).2)) (s : σ) (xs : List ι) :
    feed step' (view s) xs = (view (feed step s xs).1, (feed step s xs).2) := by
  induction xs generalizing s with
  | nil => rfl
  | cons x xs ih => rw [feed_cons, h, ih, feed_cons]

/-- Outputs worked on by the input they belong to. -/
theorem feed_out (step : σ → ι → σ × ο) (f : ι → ο → ω) (s : σ) (xs : List ι) :
    feed (fun s x => ((step s x).1, f x (step s x).2)) s xs =
      ((feed step s xs).1, List.zipWith f xs (feed step s xs).2) := by
  induction xs generalizing s with
  | nil => rfl
  | cons x xs ih => rw [feed_cons, ih, feed_cons, List.zipWith_cons_cons]

/-- A machine that hands each input and its own output on to a second one. -/
def cascade (first : σ → ι → σ × μ) (second : τ → ι × μ → τ × ο) (s : σ × τ) (x : ι) :
    (σ × τ) × ο :=
  let mid := first s.1 x
  let out := second s.2 (x, mid.2)
  ((mid.1, out.1), out.2)

/-- The first machine can run over all inputs before the second starts. -/
theorem feed_cascade (first : σ → ι → σ × μ) (second : τ → ι × μ → τ × ο) (s : σ × τ)
    (xs : List ι) :
    feed (cascade first second) s xs =
      (((feed first s.1 xs).1, (feed second s.2 (xs.zip (feed first s.1 xs).2)).1),
        (feed second s.2 (xs.zip (feed first s.1 xs).2)).2) := by
  induction xs generalizing s with
  | nil => rfl
  | cons x xs ih =>
    rw [feed_cons, ih, feed_cons, List.zip_cons_cons, feed_cons]
    rfl

/-- Cells that do not see each other, stepped together. -/
def cellwise {κ σ ι ο : Type} (step : κ → σ → ι → σ × ο) (cells : κ → σ) (x : ι) :
    (κ → σ) × (κ → ο) :=
  (fun c => (step c (cells c) x).1, fun c => (step c (cells c) x).2)

/-- Each cell can run over all inputs by itself. -/
theorem feed_cellwise {κ σ ι ο : Type} (step : κ → σ → ι → σ × ο) (cells : κ → σ) (xs : List ι) (c : κ) :
    (feed (cellwise step) cells xs).1 c = (feed (step c) (cells c) xs).1 ∧
      (feed (cellwise step) cells xs).2.map (fun out => out c) = (feed (step c) (cells c) xs).2 := by
  induction xs generalizing cells with
  | nil => exact ⟨rfl, rfl⟩
  | cons x xs ih =>
    obtain ⟨hstate, houts⟩ := ih (cellwise step cells x).1
    rw [feed_cons, feed_cons]
    refine ⟨hstate, ?_⟩
    rw [List.map_cons, houts]
    rfl

section Lanes

variable (step : σ → ι → σ × ο)

def setLane (lanes : Nat → σ) (lane : Nat) (s : σ) : Nat → σ :=
  fun l => if l = lane then s else lanes l

/-- An input goes to its lane. -/
def atLane (lanes : Nat → σ) (x : Nat × ι) : (Nat → σ) × ο :=
  let out := step (lanes x.1) x.2
  (setLane lanes x.1 out.1, out.2)

@[simp] theorem setLane_self (lanes : Nat → σ) (lane : Nat) (s : σ) :
    setLane lanes lane s lane = s := if_pos rfl

theorem setLane_other {lanes : Nat → σ} (h : l ≠ lane) : setLane lanes lane s l = lanes l :=
  if_neg h

/-- What of a list of inputs, or of the values beside them, is for a lane. -/
def ofLane (lane : Nat) (xs : List (Nat × ι)) : List ι :=
  (xs.filter fun x => x.1 == lane).map Prod.snd

theorem ofLane_cons (lane : Nat) (x : Nat × ι) (xs : List (Nat × ι)) :
    ofLane lane (x :: xs) = if x.1 = lane then x.2 :: ofLane lane xs else ofLane lane xs := by
  unfold ofLane
  rw [List.filter_cons]
  by_cases h : x.1 = lane
  · simp [h]
  · simp [h]

/-- A lane sees its own inputs only. -/
theorem feed_atLane (lanes : Nat → σ) (xs : List (Nat × ι)) (lane : Nat) :
    (feed (atLane step) lanes xs).1 lane = (feed step (lanes lane) (ofLane lane xs)).1 ∧
      ofLane lane ((xs.map Prod.fst).zip (feed (atLane step) lanes xs).2) =
        (feed step (lanes lane) (ofLane lane xs)).2 := by
  induction xs generalizing lanes with
  | nil => exact ⟨rfl, rfl⟩
  | cons x xs ih =>
    obtain ⟨hstate, houts⟩ := ih (atLane step lanes x).1
    rw [feed_cons, List.map_cons, List.zip_cons_cons, ofLane_cons, ofLane_cons]
    by_cases h : x.1 = lane
    · rw [if_pos h, if_pos h, feed_cons]
      have hlane : (atLane step lanes x).1 lane = (step (lanes lane) x.2).1 := by
        unfold atLane
        rw [← h]
        exact setLane_self ..
      rw [hlane] at hstate houts
      refine ⟨hstate, ?_⟩
      dsimp only
      rw [houts]
      unfold atLane
      rw [h]
    · rw [if_neg h, if_neg h]
      have hlane : (atLane step lanes x).1 lane = lanes lane :=
        setLane_other fun heq => h heq.symm
      rw [hlane] at hstate houts
      exact ⟨hstate, houts⟩

theorem setLane_same (lanes : Nat → σ) (lane : Nat) : setLane lanes lane (lanes lane) = lanes := by
  funext l
  unfold setLane
  split
  · next h => rw [h]
  · rfl

theorem setLane_again (lanes : Nat → σ) (lane : Nat) (s t : σ) :
    setLane (setLane lanes lane s) lane t = setLane lanes lane t := by
  funext l
  unfold setLane
  split <;> rfl

/-- Inputs of one lane change that lane only. -/
theorem feed_oneLane (lanes : Nat → σ) {xs : List (Nat × ι)} {lane : Nat}
    (h : ∀ x ∈ xs, x.1 = lane) :
    feed (atLane step) lanes xs =
      (setLane lanes lane (feed step (lanes lane) (xs.map Prod.snd)).1,
        (feed step (lanes lane) (xs.map Prod.snd)).2) := by
  induction xs generalizing lanes with
  | nil =>
    rw [feed_nil, List.map_nil, feed_nil, setLane_same]
  | cons x xs ih =>
    have hx := h x List.mem_cons_self
    rw [feed_cons, ih _ fun y hy => h y (List.mem_cons_of_mem _ hy), List.map_cons, feed_cons]
    unfold atLane
    dsimp only
    rw [hx, setLane_self, setLane_again]

/-- One input each for lanes of their own, all read before any is written. -/
def together (lanes : Nat → σ) (xs : List (Nat × ι)) : (Nat → σ) × List ο :=
  (xs.foldl (fun after x => setLane after x.1 (step (lanes x.1) x.2).1) lanes,
    xs.map fun x => (step (lanes x.1) x.2).2)

theorem foldl_setLane (lanes after : Nat → σ) {xs : List (Nat × ι)} {lane : Nat} {s : σ}
    (h : ∀ x ∈ xs, x.1 ≠ lane) :
    xs.foldl (fun after x => setLane after x.1 (step (setLane lanes lane s x.1) x.2).1) after =
      xs.foldl (fun after x => setLane after x.1 (step (lanes x.1) x.2).1) after := by
  induction xs generalizing after with
  | nil => rfl
  | cons x xs ih =>
    rw [List.foldl_cons, List.foldl_cons, setLane_other (h x List.mem_cons_self)]
    exact ih _ fun y hy => h y (List.mem_cons_of_mem _ hy)

/-- Together or one at a time, lanes of their own end the same. -/
theorem together_eq (lanes : Nat → σ) {xs : List (Nat × ι)} (h : (xs.map Prod.fst).Nodup) :
    together step lanes xs = feed (atLane step) lanes xs := by
  induction xs generalizing lanes with
  | nil => rfl
  | cons x xs ih =>
    rw [List.map_cons, List.nodup_cons] at h
    have hothers : ∀ y ∈ xs, y.1 ≠ x.1 := by
      intro y hy heq
      exact h.1 (heq ▸ List.mem_map_of_mem hy)
    rw [feed_cons, ← ih _ h.2]
    unfold together atLane
    dsimp only
    rw [List.foldl_cons, List.map_cons, foldl_setLane step lanes _ hothers]
    congr 2
    apply List.map_congr_left
    intro y hy
    rw [setLane_other (hothers y hy)]

end Lanes

end Flambeau.Systems
