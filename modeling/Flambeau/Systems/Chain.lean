namespace Flambeau.Systems

section TryFeed

variable (step : σ → ι → Option (σ × ο))

/-- Inputs one at a time, up to the first that is refused; a refusal leaves no result. -/
def tryFeed (s : σ) : List ι → Option (σ × List ο)
  | [] => some (s, [])
  | x :: xs =>
    (step s x).bind fun out => (tryFeed out.1 xs).map fun rest => (rest.1, out.2 :: rest.2)

@[simp] theorem tryFeed_nil (s : σ) : tryFeed step s [] = some (s, []) := rfl

theorem tryFeed_cons (s : σ) (x : ι) (xs : List ι) :
    tryFeed step s (x :: xs) =
      (step s x).bind fun out =>
        (tryFeed step out.1 xs).map fun rest => (rest.1, out.2 :: rest.2) := rfl

/-- One input that every state refuses is enough. -/
theorem tryFeed_refused {xs : List ι} (hmem : x ∈ xs) (hrefused : ∀ s, step s x = none) (s : σ) :
    tryFeed step s xs = none := by
  induction xs generalizing s with
  | nil => exact absurd hmem List.not_mem_nil
  | cons y ys ih =>
    rw [tryFeed_cons]
    rcases List.mem_cons.mp hmem with rfl | hmem
    · rw [hrefused]
      rfl
    · cases step s y with
      | none => rfl
      | some out =>
        rw [Option.bind_some, ih hmem]
        rfl

theorem tryFeed_congr {step' : σ → ι → Option (σ × ο)} {xs : List ι}
    (h : ∀ s, ∀ x ∈ xs, step s x = step' s x) (s : σ) :
    tryFeed step s xs = tryFeed step' s xs := by
  induction xs generalizing s with
  | nil => rfl
  | cons x xs ih =>
    rw [tryFeed_cons, tryFeed_cons, h s x List.mem_cons_self]
    congr 1
    funext out
    rw [ih fun s y hy => h s y (List.mem_cons_of_mem _ hy)]

theorem tryFeed_map (f : κ → ι) (s : σ) (xs : List κ) :
    tryFeed step s (xs.map f) = tryFeed (fun s x => step s (f x)) s xs := by
  induction xs generalizing s with
  | nil => rfl
  | cons x xs ih =>
    rw [List.map_cons, tryFeed_cons, tryFeed_cons]
    congr 1
    funext out
    rw [ih]

/-- What every output keeps of its input. -/
theorem tryFeed_keeps {view : ι → κ} {view' : ο → κ} {s : σ} {xs : List ι}
    (h : ∀ s x out, step s x = some out → view' out.2 = view x)
    (hrun : tryFeed step s xs = some after) : after.2.map view' = xs.map view := by
  induction xs generalizing s after with
  | nil =>
    cases hrun
    rfl
  | cons x xs ih =>
    rw [tryFeed_cons] at hrun
    obtain ⟨out, hout, hrun⟩ := Option.bind_eq_some_iff.mp hrun
    obtain ⟨rest, hrest, rfl⟩ := Option.map_eq_some_iff.mp hrun
    rw [List.map_cons, List.map_cons, h s x out hout, ih hrest]

/-- Outputs worked on by the input they belong to. -/
theorem tryFeed_out (f : ι → ο → ω) (s : σ) (xs : List ι) :
    tryFeed (fun s x => (step s x).map fun out => (out.1, f x out.2)) s xs =
      (tryFeed step s xs).map fun after => (after.1, List.zipWith f xs after.2) := by
  induction xs generalizing s with
  | nil => rfl
  | cons x xs ih =>
    rw [tryFeed_cons, tryFeed_cons]
    cases step s x with
    | none => rfl
    | some out =>
      simp only [Option.map_some, Option.bind_some, ih]
      cases tryFeed step out.1 xs <;> rfl

theorem tryFeed_after (f : ο → ω) (s : σ) (xs : List ι) :
    tryFeed (fun s x => (step s x).map fun out => (out.1, f out.2)) s xs =
      (tryFeed step s xs).map fun after => (after.1, after.2.map f) := by
  induction xs generalizing s with
  | nil => rfl
  | cons x xs ih =>
    rw [tryFeed_cons, tryFeed_cons]
    cases step s x with
    | none => rfl
    | some out =>
      simp only [Option.map_some, Option.bind_some, ih]
      cases tryFeed step out.1 xs <;> rfl

/-- A view of the state that the step respects. -/
theorem tryFeed_view {step' : τ → ι → Option (τ × ο)} {view : σ → τ}
    (h : ∀ s x, step' (view s) x = (step s x).map fun out => (view out.1, out.2)) (s : σ)
    (xs : List ι) :
    tryFeed step' (view s) xs = (tryFeed step s xs).map fun after => (view after.1, after.2) := by
  induction xs generalizing s with
  | nil => rfl
  | cons x xs ih =>
    rw [tryFeed_cons, tryFeed_cons, h]
    cases step s x with
    | none => rfl
    | some out =>
      simp only [Option.map_some, Option.bind_some, ih]
      cases tryFeed step out.1 xs <;> rfl

end TryFeed

/-- Rows that are worked on one by one can be joined first. -/
theorem flatten_zipWith (f : ι → κ → ω) {xss : List (List ι)} {yss : List (List κ)}
    (h : xss.map List.length = yss.map List.length) :
    (List.zipWith (List.zipWith f) xss yss).flatten =
      List.zipWith f xss.flatten yss.flatten := by
  induction xss generalizing yss with
  | nil => rfl
  | cons xs xss ih =>
    cases yss with
    | nil => cases h
    | cons ys yss =>
      obtain ⟨hlen, hrest⟩ := List.cons.inj h
      rw [List.zipWith_cons_cons, List.flatten_cons, List.flatten_cons, List.flatten_cons,
        List.zipWith_append hlen, ih hrest]

section Chain

variable (step : σ → ι → Option (σ × ι))

/-- Machines in a row: each works on what the one before it made of the input. -/
def chain : List σ → ι → Option (List σ × ι)
  | [], x => some ([], x)
  | s :: ss, x =>
    (step s x).bind fun out => (chain ss out.2).map fun rest => (out.1 :: rest.1, rest.2)

@[simp] theorem chain_nil (x : ι) : chain step [] x = some ([], x) := rfl

theorem chain_cons (s : σ) (ss : List σ) (x : ι) :
    chain step (s :: ss) x =
      (step s x).bind fun out =>
        (chain step ss out.2).map fun rest => (out.1 :: rest.1, rest.2) := rfl

/-- A row can be cut anywhere. -/
theorem chain_append (front back : List σ) (x : ι) :
    chain step (front ++ back) x =
      (chain step front x).bind fun mid =>
        (chain step back mid.2).map fun rest => (mid.1 ++ rest.1, rest.2) := by
  induction front generalizing x with
  | nil =>
    rw [List.nil_append, chain_nil, Option.bind_some]
    cases chain step back x <;> rfl
  | cons s ss ih =>
    rw [List.cons_append, chain_cons, chain_cons]
    cases step s x with
    | none => rfl
    | some out =>
      rw [Option.bind_some, Option.bind_some, ih]
      cases chain step ss out.2 with
      | none => rfl
      | some mid =>
        rw [Option.bind_some, Option.map_some, Option.bind_some]
        cases chain step back mid.2 <;> rfl

/-- What every machine keeps of its input, the row does. -/
theorem chain_keeps {view : ι → κ} {ss : List σ} {x : ι}
    (h : ∀ s x out, step s x = some out → view out.2 = view x)
    (hrun : chain step ss x = some after) : view after.2 = view x := by
  induction ss generalizing x after with
  | nil =>
    cases hrun
    rfl
  | cons s ss ih =>
    rw [chain_cons] at hrun
    obtain ⟨out, hout, hrun⟩ := Option.bind_eq_some_iff.mp hrun
    obtain ⟨rest, hrest, rfl⟩ := Option.map_eq_some_iff.mp hrun
    exact (ih hrest).trans (h s x out hout)

/-- The first machine can run over all inputs before the others start. -/
theorem tryFeed_chain_cons (s : σ) (ss : List σ) (xs : List ι) :
    tryFeed (chain step) (s :: ss) xs =
      (tryFeed step s xs).bind fun mid =>
        (tryFeed (chain step) ss mid.2).map fun rest => (mid.1 :: rest.1, rest.2) := by
  induction xs generalizing s ss with
  | nil => rfl
  | cons x xs ih =>
    rw [tryFeed_cons, chain_cons, tryFeed_cons]
    cases step s x with
    | none => rfl
    | some out =>
      rw [Option.bind_some, Option.bind_some]
      cases hrest : chain step ss out.2 with
      | none =>
        cases tryFeed step out.1 xs with
        | none => rfl
        | some mid =>
          rw [Option.map_some, Option.bind_some, tryFeed_cons, hrest]
          rfl
      | some rest =>
        rw [Option.map_some, Option.bind_some, ih]
        cases tryFeed step out.1 xs with
        | none => rfl
        | some mid =>
          rw [Option.bind_some, Option.map_some, Option.bind_some, tryFeed_cons, hrest,
            Option.bind_some]
          cases tryFeed (chain step) rest.1 mid.2 <;> rfl

theorem tryFeed_chain_nil (xs : List ι) : tryFeed (chain step) [] xs = some ([], xs) := by
  induction xs with
  | nil => rfl
  | cons x xs ih =>
    rw [tryFeed_cons, chain_nil, Option.bind_some, ih]
    rfl

/-- If one joint input is to every machine what the inputs it joins are one at a time,
it is so to the row. -/
theorem chain_joint {joint : σ → ι → Option (σ × ι)} {join : List ι → ι} {Fits : List ι → Prop}
    (hstep : ∀ s xs, Fits xs →
      joint s (join xs) = (tryFeed step s xs).map fun after => (after.1, join after.2))
    (hfits : ∀ s xs after, Fits xs → tryFeed step s xs = some after → Fits after.2)
    (ss : List σ) {xs : List ι} (h : Fits xs) :
    chain joint ss (join xs) =
      (tryFeed (chain step) ss xs).map fun after => (after.1, join after.2) := by
  induction ss generalizing xs with
  | nil =>
    rw [tryFeed_chain_nil]
    rfl
  | cons s ss ih =>
    rw [chain_cons, tryFeed_chain_cons, hstep s xs h]
    cases hmid : tryFeed step s xs with
    | none => rfl
    | some mid =>
      rw [Option.map_some, Option.bind_some, Option.bind_some, ih (hfits s xs mid h hmid)]
      cases tryFeed (chain step) ss mid.2 <;> rfl

end Chain

end Flambeau.Systems
