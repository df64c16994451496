import Flambeau.Server.Generation
import Flambeau.Stream.Trailing

namespace Flambeau.Server.Generation
open ToolCallParser (Text trim trimStart trimEnd)
open Flambeau.Stream (find)

/-- `chat_stops_for`. -/
def chatStopsFor (gemmaFamily : Bool) : List Text :=
  if gemmaFamily then
    ["<end_of_turn>".toList, "<turn|>".toList, "<|turn>".toList, "<|end_of_turn|>".toList,
      "<|turn|>".toList, "<|endoftext|>".toList, "<endoftext>".toList]
  else []

/-- Cut a text at the first occurrence of each marker in turn. -/
def truncateAt (markers : List Text) (text : Text) : Text :=
  markers.foldl (fun text m => match find m text with
    | some i => text.take i
    | none => text) text

/-- `truncate_leaked_reasoning`. -/
def truncateLeakedReasoning (e : Engine) (text : Text) : Text :=
  truncateAt e.chatStopMarkers (truncateAt leakMarkers text)

/-- `str::strip_prefix`, the text itself where the pattern is not there. -/
def withoutFront (pat text : Text) : Text := if pat.isPrefixOf text then text.drop pat.length else text

/-- `str::trim_start_matches` of a text's length of tries. -/
def trimStartMatches (pat text : Text) : Text :=
  (List.range text.length).foldl (fun text _ => withoutFront pat text) text

/-- An answer, and the reasoning lifted out of the text. -/
abbrev Split := Text × Option Text

def nonEmpty (cot : Text) : Option Text := if cot.isEmpty then none else some cot

/-- `split_channel_reasoning`. -/
def splitChannelReasoning (e : Engine) (markers : ReasoningMarkers) (text : Text) : Split :=
  match find markers.closing text with
  | none => (truncateLeakedReasoning e text, none)
  | some close =>
    let head := withoutFront markers.opening (trim (text.take close))
    let cot :=
      match find ['\n'] head with
      | some nl => trim (head.drop (nl + 1))
      | none => []
    let answer := text.drop (close + markers.closing.length)
    let answer :=
      match find ['\n'] answer with
      | some nl =>
        let h := trim (answer.take nl)
        if h.isEmpty || h == "final".toList then answer.drop (nl + 1) else answer
      | none => answer
    (trim (truncateAt [markers.opening, markers.closing] answer), nonEmpty cot)

/-- `split_think_reasoning`. -/
def splitThinkReasoning (markers : ReasoningMarkers) (text : Text) : Split :=
  match find markers.closing text with
  | some close =>
    (trimStart (text.drop (close + markers.closing.length)),
      nonEmpty (trim (trimStartMatches markers.opening (text.take close))))
  | none => ([], nonEmpty (trim (trimStartMatches markers.opening text)))

/-- The reasoning split of `finalise`. -/
def splitReasoning (e : Engine) (enableThinking : Bool) (text : Text) : Split :=
  let markers := reasoningMarkersFor e.gemmaFamily
  match markers.style with
  | .channel => splitChannelReasoning e markers text
  | .thinkTag =>
    if enableThinking then splitThinkReasoning markers text
    else (truncateLeakedReasoning e text, none)

/-- The position of the first stop string, and which it is. -/
def earliestStop (stopStrings : List Text) (text : Text) : Nat × Option Text :=
  stopStrings.foldl (fun best s => match find s text with
    | some i => if i < best.1 then (i, some s) else best
    | none => best) (text.length, none)

/-- The parts of `CompletionOutput` that `finalise` computes. -/
structure CompletionOutput where
  text : Text
  completionTokens : Nat
  reasoningContent : Option Text
  matchedStop : Option Text

/-- The tokens that are not stop tokens. -/
def keptTokens (e : Engine) (generated : List Nat) : List Nat :=
  generated.filter fun t => !isStop e t

/-- `finalise`. -/
def finalise (e : Engine) (params : SamplingParams) (generated : List Nat) :
    Option CompletionOutput :=
  match e.tokenizer.decode (keptTokens e generated) with
  | none => none
  | some text =>
    let (text, reasoning) := splitReasoning e params.enableThinking text
    let (earliest, matchedStop) := earliestStop params.stopStrings text
    some ⟨trimEnd (text.take earliest), generated.length, reasoning, matchedStop⟩

theorem truncateAt_take (markers : List Text) (text : Text) :
    ∃ n, n ≤ text.length ∧ truncateAt markers text = text.take n := by
  unfold truncateAt
  induction markers generalizing text with
  | nil => exact ⟨text.length, Nat.le_refl _, (List.take_length).symm⟩
  | cons m markers ih =>
    rw [List.foldl_cons]
    split
    · rename_i i hfind
      obtain ⟨n, hn, heq⟩ := ih (text.take i)
      rw [List.length_take] at hn
      refine ⟨n, by omega, ?_⟩
      rw [heq, List.take_take, Nat.min_eq_left (by omega)]
    · exact ih text

end Flambeau.Server.Generation

namespace Flambeau.Server.Generation
open Flambeau.Runtime
open ToolCallParser (Text byteLen splitByte splitByte_append trimEnd isWhitespace)
open Flambeau.Stream

theorem trimEnd_eq (text : Text) : trimEnd text = text.rdropWhile isWhitespace := rfl

theorem trimReplacement_eq (text : Text) :
    trimReplacement text = text.rdropWhile (· == replacement) := rfl

theorem contains_iff {text pat : Text} : contains text pat = true ↔ ∃ i, pat <+: text.drop i := by
  constructor
  · intro h
    obtain ⟨i, hi⟩ := Option.isSome_iff_exists.mp h
    exact ⟨i, (find_first hi).1⟩
  · rintro ⟨i, hi⟩
    exact find_isSome hi

theorem find_of_contains {text pat : Text} (h : contains text pat = true) :
    ∃ i, find pat text = some i := Option.isSome_iff_exists.mp h

/-- A text of a front lies in the text. -/
theorem contains_mono {text front pat : Text} (hfront : front <+: text) (h : contains front pat = true) :
    contains text pat = true := by
  obtain ⟨i, hi⟩ := contains_iff.mp h
  obtain ⟨rest, rfl⟩ := hfront
  refine contains_iff.mpr ⟨i, hi.trans ?_⟩
  rw [List.drop_append]
  exact List.prefix_append _ _

theorem truncateAt_none {markers : List Text} {text : Text}
    (h : ∀ m ∈ markers, contains text m = false) : truncateAt markers text = text := by
  unfold truncateAt
  induction markers with
  | nil => rfl
  | cons m markers ih =>
    have hm := h m List.mem_cons_self
    have hfind : find m text = none := by simpa [contains] using hm
    rw [List.foldl_cons, hfind]
    exact ih fun m hm => h m (List.mem_cons_of_mem _ hm)

/-- No marker is left after the cut. -/
theorem truncateAt_free {markers : List Text} {text m : Text} (hm : m ∈ markers) (hne : m ≠ []) :
    contains (truncateAt markers text) m = false := by
  have hstays : ∀ (ms : List Text) (text : Text), contains text m = false →
      contains (truncateAt ms text) m = false := by
    intro ms text hfree
    obtain ⟨n, -, heq⟩ := truncateAt_take ms text
    rw [heq]
    apply Bool.eq_false_iff.mpr
    intro hin
    rw [contains_mono (List.take_prefix n text) hin] at hfree
    cases hfree
  induction markers generalizing text with
  | nil => cases hm
  | cons m' markers ih =>
    unfold truncateAt
    rw [List.foldl_cons]
    rcases List.mem_cons.mp hm with rfl | hm
    · refine hstays markers _ ?_
      split
      · rename_i i hfind
        apply Bool.eq_false_iff.mpr
        intro hin
        obtain ⟨j, hj⟩ := contains_iff.mp hin
        have hle := (find_first hfind).2 j (hj.trans ?_)
        · rw [List.drop_eq_nil_of_le (by rw [List.length_take]; omega), List.prefix_nil] at hj
          exact hne hj
        · rw [List.drop_take]
          exact List.take_prefix _ _
      · rename_i hfind
        simp [contains, hfind]
    · exact ih hm

theorem earliestStop_fold (text : Text) : ∀ (stops : List Text) (best : Nat × Option Text),
    let n := (stops.foldl (fun best s => match find s text with
      | some i => if i < best.1 then (i, some s) else best
      | none => best) best).1
    n ≤ best.1 ∧ (∀ s ∈ stops, ∀ i, find s text = some i → n ≤ i) ∧
      (n = best.1 ∨ ∃ s ∈ stops, find s text = some n) := by
  intro stops
  have hlater : ∀ {stops : List Text} {n : Nat} (s : Text), (∃ s' ∈ stops, find s' text = some n) →
      ∃ s' ∈ s :: stops, find s' text = some n := by
    rintro stops n s ⟨s', hs', hn⟩
    exact ⟨s', List.mem_cons_of_mem _ hs', hn⟩
  induction stops with
  | nil =>
    intro best
    refine ⟨Nat.le_refl _, ?_, .inl rfl⟩
    intro s hs
    cases hs
  | cons s stops ih =>
    intro best
    rw [List.foldl_cons]
    cases hfind : find s text with
    | none =>
      obtain ⟨hle, hall, hfrom⟩ := ih best
      refine ⟨hle, ?_, hfrom.imp_right (hlater s)⟩
      intro s' hs' i hi
      rcases List.mem_cons.mp hs' with rfl | hs'
      · rw [hfind] at hi
        cases hi
      · exact hall s' hs' i hi
    | some i =>
      dsimp only
      by_cases hlt : i < best.1
      · rw [if_pos hlt]
        obtain ⟨hle, hall, hfrom⟩ := ih (i, some s)
        refine ⟨Nat.le_trans hle (Nat.le_of_lt hlt), ?_, .inr ?_⟩
        · intro s' hs' j hj
          rcases List.mem_cons.mp hs' with rfl | hs'
          · rw [hfind] at hj
            cases hj
            exact hle
          · exact hall s' hs' j hj
        · rcases hfrom with heq | ⟨s', hs', hn⟩
          · exact ⟨s, List.mem_cons_self, by rw [heq, hfind]⟩
          · exact ⟨s', List.mem_cons_of_mem _ hs', hn⟩
      · rw [if_neg hlt]
        obtain ⟨hle, hall, hfrom⟩ := ih best
        refine ⟨hle, ?_, hfrom.imp_right (hlater s)⟩
        intro s' hs' j hj
        rcases List.mem_cons.mp hs' with rfl | hs'
        · rw [hfind] at hj
          cases hj
          exact Nat.le_trans hle (Nat.le_of_not_lt hlt)
        · exact hall s' hs' j hj

/-- What `finalise` cuts at: a position of the text, the first of the stop
strings', or the end. -/
theorem earliestStop_spec (stops : List Text) (text : Text) :
    let n := (earliestStop stops text).1
    n ≤ text.length ∧ (∀ s ∈ stops, ∀ i, find s text = some i → n ≤ i) ∧
      (n = text.length ∨ ∃ s ∈ stops, find s text = some n) := by
  exact earliestStop_fold text stops (text.length, none)

theorem truncateLeakedReasoning_take (e : Engine) (text : Text) :
    ∃ n, n ≤ text.length ∧ truncateLeakedReasoning e text = text.take n := by
  obtain ⟨n, hn, heq⟩ := truncateAt_take leakMarkers text
  obtain ⟨k, hk, heq'⟩ := truncateAt_take e.chatStopMarkers (text.take n)
  rw [List.length_take] at hk
  refine ⟨k, by omega, ?_⟩
  rw [truncateLeakedReasoning, heq, heq', List.take_take, Nat.min_eq_left (by omega)]

theorem truncateLeakedReasoning_free (e : Engine) (text : Text) {m : Text}
    (hm : m ∈ leakMarkers ++ e.chatStopMarkers) (hne : m ≠ []) :
    contains (truncateLeakedReasoning e text) m = false := by
  unfold truncateLeakedReasoning
  rcases List.mem_append.mp hm with hleak | hchat
  · obtain ⟨n, -, heq⟩ := truncateAt_take e.chatStopMarkers (truncateAt leakMarkers text)
    have hfree := @truncateAt_free _ text _ hleak hne
    rw [heq]
    apply Bool.eq_false_iff.mpr
    intro hin
    rw [contains_mono (List.take_prefix n _) hin] at hfree
    cases hfree
  · exact truncateAt_free hchat hne

/-- A text that has neither blanks nor replacement characters. -/
def Plain (m : Text) : Prop := m ≠ [] ∧ ∀ c ∈ m, isWhitespace c = false ∧ c ≠ replacement

instance (m : Text) : Decidable (Plain m) := inferInstanceAs (Decidable (_ ∧ _))

theorem markers_plain (gemmaFamily : Bool) :
    ∀ m ∈ leakMarkers ++ chatStopsFor gemmaFamily, Plain m := by
  cases gemmaFamily <;> decide

/-- A text that the stop strings leave alone: it has no leaked marker; a stop
string in it is blanks and replacement characters and runs into the replacement
characters at its end; and it has such an end only with such a stop string. -/
structure CleanText (e : Engine) (stops : List Text) (text : Text) : Prop where
  markers : ∀ m ∈ leakMarkers ++ e.chatStopMarkers, contains text m = false
  trailing : ∀ s ∈ stops, contains text s = true →
    contains (trimReplacement text) s = false ∧ trimEnd (trimReplacement s) = []
  ends : (∀ s ∈ stops, contains text s = false) → trimReplacement text = text

theorem replacement_visible {c : Char} (h : (c == replacement) = true) : isWhitespace c = false := by
  rw [beq_iff_eq.mp h]
  decide

/-- A cut leaves the same visible text exactly where it falls into the blanks
before the trailing replacement characters. -/
theorem trimEnd_take_iff {text : Text} {n : Nat} (hn : n ≤ text.length) :
    trimEnd (trimReplacement text) = trimEnd (text.take n) ↔
      (trimEnd (trimReplacement text)).length ≤ n ∧ n ≤ (trimReplacement text).length := by
  obtain ⟨r, htext, hr⟩ := rdropWhile_run (· == replacement) text
  rw [← trimReplacement_eq] at htext
  have hleading : trimEnd (text.take n) <+: text.take n := List.rdropWhile_prefix _ _
  constructor
  · intro h
    have hle : (trimEnd (text.take n)).length ≤ n := by
      have hthis := hleading.length_le
      rw [List.length_take] at hthis
      omega
    refine ⟨h ▸ hle, ?_⟩
    apply Nat.le_of_not_lt
    intro hlt
    obtain ⟨c, hc⟩ : ∃ c, text[n - 1]? = some c := ⟨_, List.getElem?_eq_getElem (by omega)⟩
    have hrep : (c == replacement) = true := by
      apply hr c
      rw [htext, List.getElem?_append_right (by omega)] at hc
      exact List.mem_of_getElem? hc
    have htake : (text.take n)[n - 1]? = some c := by
      rw [List.getElem?_take_of_lt (by omega), hc]
    have hreach := lt_rdropWhile htake (replacement_visible hrep)
    rw [← trimEnd_eq, ← h] at hreach
    have hshort := (List.rdropWhile_prefix isWhitespace (trimReplacement text)).length_le
    rw [← trimEnd_eq] at hshort
    omega
  · rintro ⟨hlow, hhigh⟩
    obtain ⟨b, hb, hblank⟩ := rdropWhile_run isWhitespace (trimReplacement text)
    rw [← trimEnd_eq] at hb
    have htake : text.take n =
        trimEnd (trimReplacement text) ++ b.take (n - (trimEnd (trimReplacement text)).length) := by
      have hfront : text.take n = (trimReplacement text).take n := by
        conv_lhs => rw [htext]
        rw [List.take_append_of_le_length hhigh]
      rw [hfront]
      conv_lhs => rw [hb]
      rw [List.take_append, List.take_of_length_le hlow]
    rw [htake]
    have hrun := rdropWhile_append_run (trimEnd (trimReplacement text))
      (fun c hc => hblank c (List.mem_of_mem_take hc) :
        ∀ c ∈ b.take (n - (trimEnd (trimReplacement text)).length), isWhitespace c = true)
    rw [← trimEnd_eq] at hrun
    rw [hrun, trimEnd_eq, List.rdropWhile_idempotent]

/-- A visible character of a text ends before the blanks and the replacement
characters at its end. -/
theorem visible_before {text : Text} {j : Nat} {c : Char} (h : text[j]? = some c)
    (hblank : isWhitespace c = false) (hrep : c ≠ replacement) :
    j < (trimEnd (trimReplacement text)).length := by
  have hlt := lt_rdropWhile h (p := (· == replacement)) (by simpa using hrep)
  obtain ⟨r, htext, -⟩ := rdropWhile_run (· == replacement) text
  rw [htext, List.getElem?_append_left hlt] at h
  exact lt_rdropWhile h hblank

theorem getElem?_of_prefix_drop {pat text : Text} {i k : Nat} {c : Char} (h : pat <+: text.drop i)
    (hc : pat[k]? = some c) : text[i + k]? = some c := by
  obtain ⟨rest, hrest⟩ := h
  have hlt := (List.getElem?_eq_some_iff.mp hc).1
  rw [← List.getElem?_drop, ← hrest, List.getElem?_append_left hlt, hc]

/-- No cut that falls short of the end of a plain marker keeps the visible text. -/
theorem plain_marker_reach {text m : Text} (hm : Plain m) {i : Nat} (h : m <+: text.drop i) :
    i + m.length ≤ (trimEnd (trimReplacement text)).length := by
  have hpos := List.length_pos_iff.mpr hm.1
  obtain ⟨c, hc⟩ : ∃ c, m[m.length - 1]? = some c := ⟨_, List.getElem?_eq_getElem (by omega)⟩
  obtain ⟨hblank, hrep⟩ := hm.2 c (List.mem_of_getElem? hc)
  have hlt := visible_before (getElem?_of_prefix_drop h hc) hblank hrep
  omega

/-- A stop string that is not in the text without its trailing replacement
characters runs into them. -/
theorem runs_into {text s : Text} {i : Nat} (hin : s <+: text.drop i)
    (hnot : contains (trimReplacement text) s = false) :
    ∃ w, s = (trimReplacement text).drop i ++ w ∧ ∀ c ∈ w, (c == replacement) = true := by
  obtain ⟨r, htext, hr⟩ := rdropWhile_run (· == replacement) text
  rw [← trimReplacement_eq] at htext
  have hdrop : text.drop i = (trimReplacement text).drop i ++ r.drop (i - (trimReplacement text).length) := by
    conv_lhs => rw [htext]
    rw [List.drop_append]
  rw [hdrop] at hin
  rcases List.prefix_or_prefix_of_prefix hin (List.prefix_append _ _) with h | ⟨w, rfl⟩
  · rw [contains_iff.mpr ⟨i, h⟩] at hnot
    cases hnot
  · have hw := (List.prefix_append_right_inj _).mp hin
    exact ⟨w, rfl, fun c hc => hr c (List.mem_of_mem_drop (hw.subset hc))⟩

/-- A stop string of blanks and replacement characters starts after the visible
text. -/
theorem blank_stop_after {text s : Text} {i : Nat} (hin : s <+: text.drop i)
    (hnot : contains (trimReplacement text) s = false) (hblank : trimEnd (trimReplacement s) = []) :
    (trimEnd (trimReplacement text)).length ≤ i := by
  obtain ⟨w, rfl, hw⟩ := runs_into hin hnot
  have hself : trimReplacement ((trimReplacement text).drop i) = (trimReplacement text).drop i := by
    rw [trimReplacement_eq, List.rdropWhile_eq_self_iff]
    intro hne
    have hne' : trimReplacement text ≠ [] := by
      intro hnil
      rw [hnil, List.drop_nil] at hne
      exact hne rfl
    rw [List.getLast_drop]
    exact List.rdropWhile_last_not _ _ hne'
  rw [trimReplacement_eq, rdropWhile_append_run _ hw, ← trimReplacement_eq, hself] at hblank
  have hall := List.rdropWhile_eq_nil_iff.mp hblank
  have hcut := rdropWhile_append_run ((trimReplacement text).take i) hall
  rw [List.take_append_drop] at hcut
  rw [trimEnd_eq, hcut]
  have hle := (List.rdropWhile_prefix isWhitespace ((trimReplacement text).take i)).length_le
  rw [List.length_take] at hle
  omega

/-- A stop string that is not in the streamed text starts no later than its end. -/
theorem stop_starts_before {text s : Text} {i : Nat} (hne : s ≠ []) (hi : find s text = some i)
    (hnot : contains (trimReplacement text) s = false) : i ≤ (trimReplacement text).length := by
  apply Nat.le_of_not_lt
  intro hlt
  obtain ⟨hin, hfirst⟩ := find_first hi
  obtain ⟨w, hsw, hw⟩ := runs_into hin hnot
  obtain ⟨r, htext, hr⟩ := rdropWhile_run (· == replacement) text
  rw [← trimReplacement_eq] at htext
  rw [List.drop_eq_nil_of_le (Nat.le_of_lt hlt), List.nil_append] at hsw
  subst hsw
  have hlen := hin.length_le
  rw [List.length_drop] at hlen
  have htotal : text.length = (trimReplacement text).length + r.length := by
    conv_lhs => rw [htext]
    rw [List.length_append]
  have hpos := List.length_pos_iff.mpr hne
  have hw' := List.eq_replicate_iff.mpr ⟨rfl, fun c hc => beq_iff_eq.mp (hw c hc)⟩
  have hr' := List.eq_replicate_iff.mpr ⟨rfl, fun c hc => beq_iff_eq.mp (hr c hc)⟩
  have hrun : text.drop (trimReplacement text).length = r := by
    obtain ⟨k, hk⟩ : ∃ k, k = (trimReplacement text).length := ⟨_, rfl⟩
    rw [← hk, htext, List.drop_left' hk.symm]
  have hstart : s <+: text.drop (trimReplacement text).length := by
    rw [hrun, hw', hr']
    refine ⟨List.replicate (r.length - s.length) replacement, ?_⟩
    rw [List.replicate_append_replicate]
    congr 1
    omega
  have := hfirst _ hstart
  omega

/-- What `finalise` makes of a text without a split agrees with the text as it is
streamed, and no stop string is in that, exactly where the text is clean. -/
theorem clean_iff {e : Engine} (hplain : ∀ m ∈ leakMarkers ++ e.chatStopMarkers, Plain m)
    {stops : List Text} (hstops : ∀ s ∈ stops, s ≠ []) (text : Text) :
    ((∀ s ∈ stops, contains (trimReplacement text) s = false) ∧
      trimEnd (trimReplacement text) = trimEnd ((truncateLeakedReasoning e text).take
        (earliestStop stops (truncateLeakedReasoning e text)).1)) ↔ CleanText e stops text := by
  have hfront : trimReplacement text <+: text := List.rdropWhile_prefix _ _
  have hshort : (trimEnd (trimReplacement text)).length ≤ (trimReplacement text).length :=
    (List.rdropWhile_prefix isWhitespace (trimReplacement text)).length_le
  have hfree : (∀ m ∈ leakMarkers ++ e.chatStopMarkers, contains text m = false) →
      truncateLeakedReasoning e text = text := by
    intro hmarkers
    unfold truncateLeakedReasoning
    rw [@truncateAt_none leakMarkers _ (fun m hm => hmarkers m (List.mem_append_left _ hm))]
    exact truncateAt_none fun m hm => hmarkers m (List.mem_append_right _ hm)
  constructor
  · rintro ⟨hnone, hsame⟩
    have hmarkers : ∀ m ∈ leakMarkers ++ e.chatStopMarkers, contains text m = false := by
      intro m hm
      apply Bool.eq_false_iff.mpr
      intro hin
      obtain ⟨i, hi⟩ := contains_iff.mp hin
      have hreach := plain_marker_reach (hplain m hm) hi
      obtain ⟨n, hn, hcut⟩ := truncateLeakedReasoning_take e text
      have hgone := truncateLeakedReasoning_free e text hm (hplain m hm).1
      rw [hcut] at hgone hsame
      have hstop := (earliestStop_spec stops (text.take n)).1
      rw [List.length_take] at hstop
      rw [List.take_take, Nat.min_eq_left (by omega)] at hsame
      have hlow := ((trimEnd_take_iff (by omega)).mp hsame).1
      rw [contains_iff.mpr ⟨i, ?_⟩] at hgone
      · cases hgone
      · rw [List.drop_take]
        exact List.prefix_take_iff.mpr ⟨hi, by omega⟩
    rw [hfree hmarkers] at hsame
    obtain ⟨hle, hfirst, hfrom⟩ := earliestStop_spec stops text
    obtain ⟨hlow, hhigh⟩ := (trimEnd_take_iff hle).mp hsame
    refine ⟨hmarkers, ?_, ?_⟩
    · intro s hs hin
      refine ⟨hnone s hs, ?_⟩
      obtain ⟨i, hi⟩ := find_of_contains hin
      obtain ⟨w, hsw, hw⟩ := runs_into (find_first hi).1 (hnone s hs)
      have hblank : ∀ c ∈ (trimReplacement text).drop i, isWhitespace c = true := by
        intro c hc
        obtain ⟨b, hb, hall⟩ := rdropWhile_run isWhitespace (trimReplacement text)
        rw [← trimEnd_eq] at hb
        apply hall c
        have hi' := hfirst s hs i hi
        rw [hb, List.drop_append, List.drop_eq_nil_of_le (by omega), List.nil_append] at hc
        exact List.mem_of_mem_drop hc
      rw [trimReplacement_eq, hsw, rdropWhile_append_run _ hw]
      exact rdropWhile_eq_nil fun c hc => hblank c ((List.rdropWhile_prefix _ _).subset hc)
    · intro hno
      have hend : (earliestStop stops text).1 = text.length := by
        refine hfrom.resolve_right ?_
        rintro ⟨s, hs, hfind⟩
        have hgone := hno s hs
        rw [contains, hfind] at hgone
        cases hgone
      exact List.IsPrefix.eq_of_length hfront (by have := hfront.length_le; omega)
  · intro hclean
    rw [hfree hclean.markers]
    obtain ⟨hle, hfirst, hfrom⟩ := earliestStop_spec stops text
    refine ⟨?_, (trimEnd_take_iff hle).mpr ⟨?_, ?_⟩⟩
    · intro s hs
      cases hin : contains text s with
      | true => exact (hclean.trailing s hs hin).1
      | false =>
        apply Bool.eq_false_iff.mpr
        intro hfronts
        rw [contains_mono hfront hfronts] at hin
        cases hin
    · rcases hfrom with heq | ⟨s, hs, hfind⟩
      · have := hfront.length_le
        omega
      · have hin : contains text s = true := by rw [contains, hfind]; rfl
        obtain ⟨hnot, hblank⟩ := hclean.trailing s hs hin
        exact blank_stop_after (find_first hfind).1 hnot hblank
    · cases hany : stops.any (contains text) with
      | false =>
        have hno : ∀ s ∈ stops, contains text s = false := by
          intro s hs
          exact Bool.eq_false_iff.mpr (List.any_eq_false.mp hany s hs)
        rw [hclean.ends hno]
        exact hle
      | true =>
        obtain ⟨s, hs, hin⟩ := List.any_eq_true.mp hany
        obtain ⟨i, hi⟩ := find_of_contains hin
        exact Nat.le_trans (hfirst s hs i hi)
          (stop_starts_before (hstops s hs) hi (hclean.trailing s hs hin).1)

end Flambeau.Server.Generation
