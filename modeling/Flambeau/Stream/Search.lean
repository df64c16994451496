namespace Flambeau.Stream

/-- The first place of a text where `here` answers, with what lies before it. -/
def scan (here : List α → Option β) : List α → Option (List α × β)
  | [] => (here []).map fun b => ([], b)
  | c :: s =>
    match here (c :: s) with
    | some b => some ([], b)
    | none => (scan here s).map fun r => (c :: r.1, r.2)

theorem scan_here {here : List α → Option β} (h : here s = some b) : scan here s = some ([], b) := by
  cases s with
  | nil => simp [scan, h]
  | cons c s => simp [scan, h]

theorem scan_pass {here : List α → Option β} (h : here (c :: s) = none) :
    scan here (c :: s) = (scan here s).map fun r => (c :: r.1, r.2) := by
  simp [scan, h]

/-- Where nothing starts in a front, it can be passed over. -/
theorem scan_skip {here : List α → Option β} (u s : List α)
    (h : ∀ w, w <:+ u → w ≠ [] → here (w ++ s) = none) :
    scan here (u ++ s) = (scan here s).map fun r => (u ++ r.1, r.2) := by
  induction u with
  | nil => simp
  | cons c u ih =>
    have hhead : here (c :: (u ++ s)) = none := h (c :: u) (List.suffix_refl _) (by simp)
    have hrest : ∀ w, w <:+ u → w ≠ [] → here (w ++ s) = none := by
      intro w hw hne
      exact h w (hw.trans (List.suffix_cons c u)) hne
    rw [List.cons_append, scan_pass hhead, ih hrest, Option.map_map]
    rfl

theorem scan_some {here : List α → Option β} (h : scan here s = some (u, b)) :
    ∃ t, s = u ++ t ∧ here t = some b ∧ ∀ w, w <:+ u → w ≠ [] → here (w ++ t) = none := by
  induction s generalizing u with
  | nil =>
    simp only [scan, Option.map_eq_some_iff, Prod.mk.injEq] at h
    obtain ⟨b', hb, rfl, rfl⟩ := h
    refine ⟨[], rfl, hb, ?_⟩
    intro w hw hne
    exact absurd (List.suffix_nil.mp hw) hne
  | cons c s ih =>
    cases hc : here (c :: s) with
    | some b' =>
      rw [scan_here hc] at h
      cases h
      refine ⟨c :: s, rfl, hc, ?_⟩
      intro w hw hne
      exact absurd (List.suffix_nil.mp hw) hne
    | none =>
      rw [scan_pass hc, Option.map_eq_some_iff] at h
      obtain ⟨⟨v, b'⟩, hv, heq⟩ := h
      cases heq
      obtain ⟨t, rfl, ht, hfree⟩ := ih hv
      refine ⟨t, rfl, ht, ?_⟩
      intro w hw hne
      rcases List.suffix_cons_iff.mp hw with rfl | hw
      · exact hc
      · exact hfree w hw hne

theorem scan_none {here : List α → Option β} :
    scan here s = none ↔ ∀ w, w <:+ s → here w = none := by
  induction s with
  | nil =>
    simp only [scan, Option.map_eq_none_iff]
    constructor
    · intro h w hw
      rw [List.suffix_nil.mp hw]
      exact h
    · intro h
      exact h [] (List.suffix_refl [])
  | cons c s ih =>
    constructor
    · intro h w hw
      cases hc : here (c :: s) with
      | some b =>
        rw [scan_here hc] at h
        cases h
      | none =>
        rw [scan_pass hc, Option.map_eq_none_iff] at h
        rcases List.suffix_cons_iff.mp hw with rfl | hw
        · exact hc
        · exact ih.mp h w hw
    · intro h
      rw [scan_pass (h _ (List.suffix_refl _)), Option.map_eq_none_iff]
      exact ih.mpr fun w hw => h w (hw.trans (List.suffix_cons c s))

/-! Literal patterns. -/

section Patterns
variable [DecidableEq α]

/-- The position of a pattern's first occurrence. -/
def find (pat : List α) : List α → Option Nat
  | [] => if pat.isPrefixOf [] then some 0 else none
  | c :: s => if pat.isPrefixOf (c :: s) then some 0 else (find pat s).map (· + 1)

/-- The first of the entries with the smallest key. -/
def minByKey : List (Nat × β) → Option (Nat × β)
  | [] => none
  | x :: xs =>
    match minByKey xs with
    | none => some x
    | some y => if y.1 < x.1 then some y else some x

/-- The earliest occurrence of any of the tags, the first of the list on a tie. -/
def earliest (tags : List (List α)) (s : List α) : Option (Nat × List α) :=
  minByKey (tags.filterMap fun t => (find t s).map fun p => (p, t))

/-- The first tag of the list that a text starts with. -/
def tagHere (tags : List (List α)) (s : List α) : Option (List α) :=
  tags.find? fun t => t.isPrefixOf s

omit [DecidableEq α] in
theorem minByKey_shift (xs : List (Nat × β)) :
    minByKey (xs.map fun x => (x.1 + 1, x.2)) = (minByKey xs).map fun x => (x.1 + 1, x.2) := by
  induction xs with
  | nil => rfl
  | cons x xs ih =>
    simp only [List.map_cons, minByKey, ih]
    cases minByKey xs with
    | none => rfl
    | some y =>
      simp only [Option.map_some]
      split <;> split
      · rfl
      · omega
      · omega
      · rfl

omit [DecidableEq α] in
theorem minByKey_zero {xs : List (Nat × β)} (h : xs.find? (fun x => x.1 == 0) = some x) :
    minByKey xs = some x := by
  induction xs with
  | nil => cases h
  | cons y xs ih =>
    rw [List.find?_cons] at h
    simp only [minByKey]
    split at h
    · rename_i hy
      cases h
      have hzero : x.1 = 0 := by simpa using hy
      cases minByKey xs with
      | none => rfl
      | some z =>
        simp only
        rw [if_neg (by omega)]
    · rename_i hy
      have hx := List.find?_some h
      rw [ih h]
      simp only
      rw [if_pos]
      simp only [beq_iff_eq] at hx
      simp only [beq_eq_false_iff_ne] at hy
      omega

theorem find_cons_pos {pat : List α} (h : pat.isPrefixOf (c :: s) = true) :
    find pat (c :: s) = some 0 := by
  simp [find, h]

theorem find_cons_neg {pat : List α} (h : pat.isPrefixOf (c :: s) = false) :
    find pat (c :: s) = (find pat s).map (· + 1) := by
  simp [find, h]

/-- The entries at position zero are those of the tags the text starts with. -/
theorem entries_zero (tags : List (List α)) (s : List α) :
    (tags.filterMap fun t => (find t s).map fun p => (p, t)).find? (fun x => x.1 == 0) =
      (tagHere tags s).map fun t => (0, t) := by
  induction tags with
  | nil => rfl
  | cons t tags ih =>
    unfold tagHere at ih ⊢
    have hzero : t.isPrefixOf s = true → find t s = some 0 := by
      intro ht
      cases s with
      | nil => simp [find, ht]
      | cons c s => exact find_cons_pos ht
    have hpos : t.isPrefixOf s = false → ∀ p, find t s = some p → p ≠ 0 := by
      intro ht p hp
      cases s with
      | nil => simp [find, ht] at hp
      | cons c s =>
        rw [find_cons_neg ht, Option.map_eq_some_iff] at hp
        obtain ⟨q, _, rfl⟩ := hp
        omega
    rw [List.find?_cons]
    cases ht : t.isPrefixOf s with
    | true =>
      rw [List.filterMap_cons, hzero ht]
      rfl
    | false =>
      rw [List.filterMap_cons]
      cases hp : find t s with
      | none => exact ih
      | some p =>
        have hne := hpos ht p hp
        simp only [Option.map_some, List.find?_cons]
        rw [beq_eq_false_iff_ne.mpr hne]
        exact ih

theorem entries_pass {tags : List (List α)} (h : ∀ t ∈ tags, t.isPrefixOf (c :: s) = false) :
    (tags.filterMap fun t => (find t (c :: s)).map fun p => (p, t)) =
      (tags.filterMap fun t => (find t s).map fun p => (p, t)).map fun x => (x.1 + 1, x.2) := by
  induction tags with
  | nil => rfl
  | cons t tags ih =>
    have ht := h t List.mem_cons_self
    have ih := ih fun t' ht' => h t' (List.mem_cons_of_mem t ht')
    rw [List.filterMap_cons, List.filterMap_cons, ih, find_cons_neg ht]
    cases find t s <;> rfl

/-- Tag by tag or place by place, the earliest occurrence is the same. -/
theorem earliest_eq_scan (tags : List (List α)) (s : List α) :
    earliest tags s = (scan (tagHere tags) s).map fun r => (r.1.length, r.2) := by
  unfold earliest
  cases htag : tagHere tags s with
  | some t =>
    rw [scan_here htag]
    apply minByKey_zero
    rw [entries_zero, htag]
    rfl
  | none =>
    have hnone : ∀ t ∈ tags, t.isPrefixOf s = false := by
      intro t ht
      have hnot := List.find?_eq_none.mp htag t ht
      exact eq_false_of_ne_true hnot
    cases s with
    | nil =>
      have hempty : (tags.filterMap fun t => (find t []).map fun p => (p, t)) = [] := by
        rw [List.filterMap_eq_nil_iff]
        intro t ht
        simp [find, hnone t ht]
      rw [hempty]
      simp [scan, htag, minByKey]
    | cons c s =>
      have ih := earliest_eq_scan tags s
      unfold earliest at ih
      rw [entries_pass hnone, minByKey_shift, ih, scan_pass htag, Option.map_map, Option.map_map]
      rfl
termination_by s.length

theorem find_eq_scan (pat s : List α) :
    find pat s = (scan (tagHere [pat]) s).map fun r => r.1.length := by
  have h := earliest_eq_scan [pat] s
  unfold earliest at h
  cases hp : find pat s with
  | none =>
    rw [List.filterMap_cons, hp] at h
    simp only [Option.map_none, List.filterMap_nil, minByKey] at h
    cases hscan : scan (tagHere [pat]) s with
    | none => rfl
    | some r =>
      rw [hscan] at h
      cases h
  | some p =>
    rw [List.filterMap_cons, hp] at h
    simp only [Option.map_some, List.filterMap_nil, minByKey] at h
    obtain ⟨r, hr, heq⟩ := Option.map_eq_some_iff.mp h.symm
    rw [hr]
    cases heq
    rfl

variable {c : α} {tags : List (List α)} {s t w : List α}

theorem tagHere_some (h : tagHere tags s = some t) : t ∈ tags ∧ t <+: s := by
  obtain ⟨hfront, _⟩ := List.find?_eq_some_iff_append.mp h
  exact ⟨List.mem_of_find?_eq_some h, List.isPrefixOf_iff_prefix.mp hfront⟩

theorem tagHere_none : tagHere tags s = none ↔ ∀ t ∈ tags, ¬ t <+: s := by
  unfold tagHere
  rw [List.find?_eq_none]
  simp only [List.isPrefixOf_iff_prefix]

/-- Tags that all begin with a letter found nowhere else in them, none of them a
front of another. -/
structure Markers (c : α) (tags : List (List α)) : Prop where
  headed : ∀ t ∈ tags, t.head? = some c ∧ c ∉ t.tail
  free : ∀ t ∈ tags, ∀ t' ∈ tags, t <+: t' → t = t'

omit [DecidableEq α] in
theorem Markers.eq_cons (h : Markers c tags) (ht : t ∈ tags) : ∃ r, t = c :: r ∧ c ∉ r := by
  obtain ⟨hhead, htail⟩ := h.headed t ht
  obtain ⟨r, rfl⟩ := List.head?_eq_some_iff.mp hhead
  exact ⟨r, rfl, htail⟩

theorem Markers.here (h : Markers c tags) (ht : t ∈ tags) (hp : t <+: s) :
    tagHere tags s = some t := by
  cases hs : tagHere tags s with
  | none => exact absurd hp (tagHere_none.mp hs t ht)
  | some t' =>
    obtain ⟨ht', hp'⟩ := tagHere_some hs
    rcases List.prefix_or_prefix_of_prefix hp hp' with hle | hle
    · rw [h.free t ht t' ht' hle]
    · rw [h.free t' ht' t ht hle]

theorem Markers.here_append (h : Markers c tags) (hs : tagHere tags s = some t) (x : List α) :
    tagHere tags (s ++ x) = some t := by
  obtain ⟨ht, hp⟩ := tagHere_some hs
  exact h.here ht (hp.trans (List.prefix_append s x))

/-- No tag starts inside what stands before a tag, whatever comes after. -/
theorem Markers.before (h : Markers c tags) (ht : t ∈ tags) (hp : t <+: s) (hw : w ≠ [])
    (hnone : tagHere tags (w ++ s) = none) (x : List α) : tagHere tags (w ++ s ++ x) = none := by
  rw [tagHere_none]
  intro t' ht' hp'
  have hfront : w ++ t <+: w ++ s ++ x := by
    rw [List.append_assoc, List.prefix_append_right_inj]
    exact hp.trans (List.prefix_append s x)
  rcases List.prefix_or_prefix_of_prefix hp' hfront with hle | hle
  · have hwhole : t' <+: w ++ s := hle.trans ((List.prefix_append_right_inj w).mpr hp)
    exact tagHere_none.mp hnone t' ht' hwhole
  · obtain ⟨r, rfl, _⟩ := h.eq_cons ht
    obtain ⟨r', rfl, hr'⟩ := h.eq_cons ht'
    obtain ⟨y, hy⟩ := hle
    cases w with
    | nil => exact hw rfl
    | cons d w =>
      simp only [List.cons_append, List.cons.injEq] at hy
      apply hr'
      rw [← hy.2]
      simp

/-- A tag that is found stays where it is found. -/
theorem Markers.scan_append (h : Markers c tags) (hs : scan (tagHere tags) s = some (u, t))
    (x : List α) : scan (tagHere tags) (s ++ x) = some (u, t) := by
  obtain ⟨r, rfl, hr, hfree⟩ := scan_some hs
  obtain ⟨ht, hp⟩ := tagHere_some hr
  have hskip : ∀ w, w <:+ u → w ≠ [] → tagHere tags (w ++ (r ++ x)) = none := by
    intro w hw hne
    rw [← List.append_assoc]
    exact h.before ht hp hne (hfree w hw hne) x
  rw [List.append_assoc, scan_skip u (r ++ x) hskip, scan_here (h.here_append hr x)]
  simp

theorem earliest_some (h : earliest tags s = some (p, t)) :
    ∃ u r, s = u ++ (t ++ r) ∧ u.length = p ∧ t ∈ tags ∧ scan (tagHere tags) s = some (u, t) := by
  rw [earliest_eq_scan, Option.map_eq_some_iff] at h
  obtain ⟨⟨u, t'⟩, hscan, heq⟩ := h
  cases heq
  obtain ⟨w, rfl, hw, _⟩ := scan_some hscan
  obtain ⟨ht, r, rfl⟩ := tagHere_some hw
  exact ⟨u, r, rfl, rfl, ht, hscan⟩

/-- What is in front of the tag, the tag and what is behind it. -/
theorem earliest_parts (h : earliest tags s = some (p, t)) : s.take p ++ (t ++ s.drop (p + t.length)) = s := by
  obtain ⟨u, r, rfl, rfl, _, _⟩ := earliest_some h
  rw [List.take_left, ← List.drop_drop, List.drop_left, List.drop_left]

/-- At the tag itself. -/
theorem earliest_at (h : earliest tags s = some (p, t)) : earliest tags (s.drop p) = some (0, t) := by
  obtain ⟨u, r, hs, rfl, _, hscan⟩ := earliest_some h
  obtain ⟨r', hr', hhere, _⟩ := scan_some hscan
  rw [hr', List.drop_left, earliest_eq_scan, scan_here hhere]
  rfl

theorem earliest_none : earliest tags s = none ↔ scan (tagHere tags) s = none := by
  rw [earliest_eq_scan, Option.map_eq_none_iff]

/-- None of the tags stands anywhere in the text. -/
def Free (tags : List (List α)) (s : List α) : Prop := ∀ t ∈ tags, ¬ t <:+: s

omit [DecidableEq α] in
theorem Free.sub (h : Free tags s) (hr : r <:+: s) : Free tags r := fun t ht hin => h t ht (hin.trans hr)

theorem earliest_free : earliest tags s = none ↔ Free tags s := by
  rw [earliest_none, scan_none]
  constructor
  · intro h t ht hin
    obtain ⟨w, hp, hw⟩ := List.infix_iff_prefix_suffix.mp hin
    exact tagHere_none.mp (h w hw) t ht hp
  · intro h w hw
    rw [tagHere_none]
    intro t ht hp
    exact h t ht (hp.isInfix.trans hw.isInfix)

instance (tags : List (List α)) (s : List α) : Decidable (Free tags s) := decidable_of_iff _ earliest_free

/-- The tag lies within the text. -/
theorem earliest_le (h : earliest tags s = some (p, t)) : p + t.length ≤ s.length := by
  obtain ⟨u, r, rfl, rfl, _, _⟩ := earliest_some h
  simp only [List.length_append]
  omega

theorem Markers.earliest_append (h : Markers c tags) (he : earliest tags s = some (p, t))
    (x : List α) : earliest tags (s ++ x) = some (p, t) := by
  obtain ⟨u, r, _, rfl, _, hscan⟩ := earliest_some he
  rw [earliest_eq_scan, h.scan_append hscan x]
  rfl

/-- The part of a text that has come shows its first tag, or none. -/
theorem Markers.earliest_cut (h : Markers c tags) (he : earliest tags (s ++ x) = some (n, t)) :
    earliest tags s = some (n, t) ∧ n + t.length ≤ s.length ∨ earliest tags s = none ∧ s.length < n + t.length := by
  cases hs : earliest tags s with
  | some r =>
    have hwhole := h.earliest_append hs x
    rw [he] at hwhole
    cases hwhole
    exact .inl ⟨rfl, earliest_le hs⟩
  | none =>
    refine .inr ⟨rfl, ?_⟩
    apply Decidable.byContradiction
    intro hle
    obtain ⟨u, r, hsplit, rfl, ht, _⟩ := earliest_some he
    have hin : u ++ t <+: s := by
      have hp : u ++ t <+: s ++ x := ⟨r, by rw [hsplit, List.append_assoc]⟩
      rcases List.prefix_or_prefix_of_prefix hp (List.prefix_append s x) with hle' | hle'
      · exact hle'
      · have heq : s = u ++ t := hle'.eq_of_length_le (by rw [List.length_append]; omega)
        exact ⟨[], by rw [heq, List.append_nil]⟩
    have hfree := earliest_free.mp hs t ht
    exact hfree ((List.suffix_append u t).isInfix.trans hin.isInfix)

/-- A tag behind text without its letter is the first one. -/
theorem Markers.earliest_here (h : Markers c tags) (ht : t ∈ tags) (hw : c ∉ w) (r : List α) :
    earliest tags (w ++ (t ++ r)) = some (w.length, t) := by
  have hskip : ∀ v, v <:+ w → v ≠ [] → tagHere tags (v ++ (t ++ r)) = none := by
    intro v hv hne
    rw [tagHere_none]
    intro t' ht' hp
    obtain ⟨d, v, rfl⟩ := List.exists_cons_of_ne_nil hne
    obtain ⟨r', rfl, -⟩ := h.eq_cons ht'
    obtain ⟨y, hy⟩ := hp
    rw [List.cons_append, List.cons_append, List.cons.injEq] at hy
    exact hw (hy.1 ▸ hv.subset List.mem_cons_self)
  rw [earliest_eq_scan, scan_skip w (t ++ r) hskip, scan_here (h.here ht (List.prefix_append t r))]
  simp

theorem find_eq_earliest (pat s : List α) :
    find pat s = (earliest [pat] s).map fun r => r.1 := by
  rw [find_eq_scan, earliest_eq_scan, Option.map_map]
  rfl

theorem find_some {pat : List α} (h : find pat s = some p) : earliest [pat] s = some (p, pat) := by
  rw [find_eq_earliest, Option.map_eq_some_iff] at h
  obtain ⟨⟨q, t⟩, he, rfl⟩ := h
  obtain ⟨_, _, _, _, ht, _⟩ := earliest_some he
  rw [List.mem_singleton.mp ht] at he
  exact he

theorem find_of_earliest {pat : List α} (h : earliest [pat] s = some (p, t)) :
    find pat s = some p := by
  rw [find_eq_earliest, h]
  rfl

theorem find_none {pat : List α} : find pat s = none ↔ earliest [pat] s = none := by
  rw [find_eq_earliest, Option.map_eq_none_iff]

theorem find_parts {pat : List α} (h : find pat s = some p) : s.take p ++ (pat ++ s.drop (p + pat.length)) = s :=
  earliest_parts (find_some h)

/-- At the pattern itself. -/
theorem find_drop {pat : List α} (h : find pat s = some p) : s.drop p = pat ++ s.drop (p + pat.length) :=
  List.append_cancel_left ((List.take_append_drop p s).trans (find_parts h).symm)

theorem find_le {pat : List α} (h : find pat s = some p) : p + pat.length ≤ s.length :=
  earliest_le (find_some h)

/-- A pattern behind text it does not stand in is the first one. -/
theorem Markers.find_here {pat : List α} (h : Markers c [pat]) (hw : ¬ pat <:+: w) (r : List α) :
    find pat (w ++ (pat ++ r)) = some w.length := by
  have hmem : pat ∈ [pat] := List.mem_singleton_self pat
  have hskip : ∀ v, v <:+ w → v ≠ [] → tagHere [pat] (v ++ (pat ++ r)) = none := by
    intro v hv hne
    have hnone : tagHere [pat] (v ++ pat) = none := by
      rw [tagHere_none]
      intro t ht hp
      rw [List.mem_singleton.mp ht] at hp
      rcases List.prefix_or_prefix_of_prefix hp (List.prefix_append v pat) with hle | ⟨z, hz⟩
      · exact hw (hle.isInfix.trans hv.isInfix)
      · obtain ⟨q, hpat, hq⟩ := h.eq_cons hmem
        obtain ⟨d, v, rfl⟩ := List.exists_cons_of_ne_nil hne
        cases z with
        | nil =>
          rw [List.append_nil] at hz
          exact hw (hz ▸ hv.isInfix)
        | cons e z =>
          obtain ⟨y, hy⟩ := hp
          -- The pattern would begin again inside itself.
          have hagain : e :: z ++ y = pat := by
            apply @List.append_cancel_left _ (d :: v)
            rw [← List.append_assoc, hz, hy]
          rw [hpat, List.cons_append, List.cons.injEq] at hz hagain
          exact hq (by rw [← hz.2, hagain.1]; simp)
    have hbefore := h.before hmem (List.prefix_refl pat) hne hnone r
    rwa [List.append_assoc] at hbefore
  have hscan : earliest [pat] (w ++ (pat ++ r)) = some (w.length, pat) := by
    rw [earliest_eq_scan, scan_skip w (pat ++ r) hskip, scan_here (h.here hmem (List.prefix_append pat r))]
    simp
  exact find_of_earliest hscan

/-- The part of a text that has come shows its first pattern, or none. -/
theorem Markers.find_cut {pat : List α} (h : Markers c [pat]) (hf : find pat (s ++ x) = some n) :
    find pat s = some n ∧ n + pat.length ≤ s.length ∨ find pat s = none ∧ s.length < n + pat.length := by
  rcases h.earliest_cut (find_some hf) with ⟨he, hle⟩ | ⟨he, hlt⟩
  · exact .inl ⟨find_of_earliest he, hle⟩
  · exact .inr ⟨find_none.mpr he, hlt⟩

theorem Markers.find_append {pat : List α} (h : Markers c [pat]) (hf : find pat s = some p)
    (x : List α) : find pat (s ++ x) = some p :=
  find_of_earliest (h.earliest_append (find_some hf) x)

omit [DecidableEq α] in
/-- A single letter is a marker. -/
theorem letter_markers (c : α) : Markers c [[c]] := by
  constructor
  · intro t ht
    rw [List.mem_singleton.mp ht]
    exact ⟨rfl, List.not_mem_nil⟩
  · intro t ht t' ht' _
    rw [List.mem_singleton.mp ht, List.mem_singleton.mp ht']

/-- The first place of a letter. -/
theorem find_letter {c : α} {u : List α} (hu : c ∉ u) (s : List α) : find [c] (u ++ c :: s) = some u.length := by
  induction u with
  | nil => exact find_cons_pos (List.isPrefixOf_iff_prefix.mpr ⟨s, rfl⟩)
  | cons d u ih =>
    have hne : (c == d) = false := beq_eq_false_iff_ne.mpr fun h => hu (h ▸ List.mem_cons_self)
    rw [List.cons_append, find_cons_neg (by rw [List.isPrefixOf, hne, Bool.false_and]),
      ih fun h => hu (List.mem_cons_of_mem d h)]
    rfl

theorem find_letter_iff {c : α} {s : List α} : find [c] s = none ↔ c ∉ s := by
  constructor
  · intro h hmem
    obtain ⟨u, r, rfl, hu⟩ := List.eq_append_cons_of_mem hmem
    rw [find_letter hu] at h
    cases h
  · intro h
    cases hf : find [c] s with
    | none => rfl
    | some n =>
      rw [← List.take_append_drop n s, find_drop hf] at h
      exact absurd (List.mem_append_right _ List.mem_cons_self) h

/-- A letter that is not there can only come behind the text. -/
theorem find_letter_none (hs : find [c] s = none) (hx : find [c] (s ++ x) = some n) :
    s.length ≤ n := by
  apply Decidable.byContradiction
  intro hlt
  obtain ⟨u, r, hsplit, hlen, _, _⟩ := earliest_some (find_some hx)
  have hmem : c ∈ s := by
    have hget : (s ++ x)[n]? = some c := by
      rw [hsplit, ← hlen]
      simp
    rw [List.getElem?_append_left (by omega)] at hget
    exact List.mem_of_getElem? hget
  obtain ⟨a, b, rfl⟩ := List.append_of_mem hmem
  have hscan := scan_none.mp (earliest_none.mp (find_none.mp hs)) (c :: b) (List.suffix_append a _)
  exact tagHere_none.mp hscan [c] List.mem_cons_self ⟨b, rfl⟩

/-- A pattern that stands before one of the letters it does not have is there
whole. -/
theorem find_before {pat : List α} (hs : find pat s = none) (hx : find pat (s ++ x) = some n)
    (hat : find [c] s = some o) (hc : c ∉ pat) : o ≤ n := by
  apply Decidable.byContradiction
  intro hlt
  obtain ⟨u, r, hsplit, rfl, _, _⟩ := earliest_some (find_some hx)
  obtain ⟨v, w, hsplit', hv, _, _⟩ := earliest_some (find_some hat)
  have hget : (s ++ x)[o]? = some c := by
    rw [hsplit', ← hv]
    simp
  by_cases hshort : o < u.length + pat.length
  · rw [hsplit, List.getElem?_append_right (by omega), List.getElem?_append_left (by omega)] at hget
    exact hc (List.mem_of_getElem? hget)
  · have hole : o < s.length := by
      have hle := find_le hat
      rw [List.length_singleton] at hle
      omega
    have hdrop : s.drop u.length ++ x = pat ++ r := by
      rw [← List.drop_append_of_le_length (by omega), hsplit, List.drop_left]
    have hfront : pat <+: s.drop u.length := by
      have hp : pat <+: s.drop u.length ++ x := ⟨r, hdrop.symm⟩
      rcases List.prefix_or_prefix_of_prefix hp (List.prefix_append _ x) with hle | hle
      · exact hle
      · have hlen := hle.length_le
        rw [List.length_drop] at hlen
        omega
    have hnone := scan_none.mp (earliest_none.mp (find_none.mp hs)) _ (List.drop_suffix u.length s)
    exact tagHere_none.mp hnone pat List.mem_cons_self hfront

/-- A front of some tag, and not the whole of it. -/
def opensTag (tags : List (List α)) (s : List α) : Bool :=
  tags.any fun t => s.length < t.length && s.isPrefixOf t

theorem opensTag_iff : opensTag tags s = true ↔ ∃ t ∈ tags, s.length < t.length ∧ s <+: t := by
  simp [opensTag]

/-- A place where no tag stands and none can still come to stand. -/
theorem tagHere_settled (hnone : tagHere tags s = none) (hopen : opensTag tags s = false)
    (x : List α) : tagHere tags (s ++ x) = none := by
  rw [tagHere_none]
  intro t ht hp
  rcases List.prefix_or_prefix_of_prefix hp (List.prefix_append s x) with hle | hle
  · exact tagHere_none.mp hnone t ht hle
  · by_cases hlen : s.length < t.length
    · have hopens := opensTag_iff.mpr ⟨t, ht, hlen, hle⟩
      rw [hopen] at hopens
      cases hopens
    · have heq : s = t := hle.eq_of_length_le (by omega)
      subst heq
      exact tagHere_none.mp hnone s ht (List.prefix_refl s)

end Patterns

/-- What stands before the first tail that is to be held, which may be empty. -/
def tailStart (held : List α → Bool) : List α → Nat
  | [] => 0
  | c :: s => if held (c :: s) then 0 else tailStart held s + 1

theorem tailStart_le (held : List α → Bool) (s : List α) : tailStart held s ≤ s.length := by
  induction s with
  | nil => simp [tailStart]
  | cons c s ih =>
    simp only [tailStart, List.length_cons]
    split <;> omega

theorem tailStart_skip {held : List α → Bool} (u s : List α)
    (h : ∀ w, w <:+ u → w ≠ [] → held (w ++ s) = false) :
    tailStart held (u ++ s) = u.length + tailStart held s := by
  induction u with
  | nil => simp
  | cons c u ih =>
    have hhead : held (c :: (u ++ s)) = false := h (c :: u) (List.suffix_refl _) (by simp)
    have ih := ih fun w hw hne => h w (hw.trans (List.suffix_cons c u)) hne
    rw [List.cons_append, tailStart, hhead, ih, List.length_cons]
    simp only [Bool.false_eq_true, if_false]
    omega

/-- A tail that is held is held with what is behind it. -/
theorem tailStart_held {held : List α → Bool} {w s : List α} (hne : s ≠ []) (h : held s = true) :
    tailStart held (w ++ s) ≤ w.length := by
  induction w with
  | nil =>
    obtain ⟨c, s, rfl⟩ := List.exists_cons_of_ne_nil hne
    rw [List.nil_append, tailStart, if_pos h]
    exact Nat.le_refl _
  | cons c w ih =>
    rw [List.cons_append, tailStart, List.length_cons]
    split <;> omega

/-- Nothing before the tail is held. -/
theorem tailStart_before {held : List α → Bool} {s w : List α} (hw : w <:+ s.take (tailStart held s))
    (hne : w ≠ []) : held (w ++ s.drop (tailStart held s)) = false := by
  induction s with
  | nil =>
    rw [List.take_nil] at hw
    exact absurd (List.suffix_nil.mp hw) hne
  | cons c s ih =>
    unfold tailStart at hw ⊢
    split at hw
    · exact absurd (List.suffix_nil.mp hw) hne
    · rename_i hheld
      rw [if_neg hheld]
      rw [List.take_succ_cons] at hw
      rw [List.drop_succ_cons]
      rcases List.suffix_cons_iff.mp hw with rfl | hw
      · rw [List.cons_append, List.take_append_drop]
        exact eq_false_of_ne_true hheld
      · exact ih hw

section Tags
variable [DecidableEq α] {tags : List (List α)} {s : List α}

theorem earliest_drop (h : earliest tags s = none) (n : Nat) : earliest tags (s.drop n) = none := by
  rw [earliest_none] at h ⊢
  rw [scan_none] at h ⊢
  intro w hw
  exact h w (hw.trans (List.drop_suffix n s))

/-- Up to the held tail, text can be passed over without a tag being missed. -/
theorem earliest_shift (h : earliest tags s = none) (x : List α) :
    earliest tags (s ++ x) = (earliest tags (s.drop (tailStart (opensTag tags) s) ++ x)).map
      fun r => (tailStart (opensTag tags) s + r.1, r.2) := by
  have hnone := scan_none.mp (earliest_none.mp h)
  have hle := tailStart_le (opensTag tags) s
  have hfree : ∀ w, w <:+ s.take (tailStart (opensTag tags) s) → w ≠ [] →
      tagHere tags (w ++ (s.drop (tailStart (opensTag tags) s) ++ x)) = none := by
    intro w hw hne
    rw [← List.append_assoc]
    apply tagHere_settled
    · apply hnone
      obtain ⟨v, hv⟩ := hw
      refine ⟨v, ?_⟩
      rw [← List.append_assoc, hv, List.take_append_drop]
    · exact tailStart_before hw hne
  have hskip := scan_skip _ _ hfree
  rw [← List.append_assoc, List.take_append_drop] at hskip
  rw [earliest_eq_scan, earliest_eq_scan, hskip, Option.map_map, Option.map_map]
  simp only [Function.comp_def, List.length_append, List.length_take, Nat.min_eq_left hle]

end Tags

end Flambeau.Stream
