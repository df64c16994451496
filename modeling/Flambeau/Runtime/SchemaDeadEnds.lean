import Flambeau.Runtime.SchemaTexts
import Flambeau.Runtime.SchemaTraps

namespace Flambeau.Runtime.SchemaReader
open Flambeau.Json Flambeau.Runtime.JsonSchema

/-! Without a trap, no position is a dead end. -/

/-- Every sub-node can be satisfied, and none within reach is a trap. -/
structure Free (node : Node) : Prop where
  satisfiable : AllSatisfiable node
  untrapped : ¬ Trap node

theorem free_any : Free .any := by
  constructor
  · intro sub hs
    cases hs
    exact any_satisfiable
  · intro ht
    cases ht

theorem free_items (h : Free (.array child)) : Free child :=
  ⟨fun sub hs => h.satisfiable sub (.items hs), fun ht => h.untrapped (.items ht)⟩

theorem free_governed (h : Free (.object properties required additional)) (hn : Typeable name) :
    Free (governed properties name) := by
  refine ⟨governed_satisfiable h.satisfiable name, ?_⟩
  intro ht
  cases hget : Map.get name properties with
  | none =>
    have hany : governed properties name = .any := by simp [governed, hget]
    rw [hany] at ht
    cases ht
  | some child =>
    rw [get_governed hget] at ht
    exact h.untrapped (.property hn hget ht)

/-- What an open object keeps from its node: its values are free, its required
names can be typed, and so can its properties where nothing else is allowed. -/
structure ObjectAlive (o : ObjectFrame) : Prop where
  values : ∀ name, Typeable name → Free (governed o.nodeProps name)
  required : ∀ r ∈ o.required, Typeable r ∧ (o.additional = true ∨ ∃ x, (r, x) ∈ o.nodeProps)
  names : o.additional = false → o.nodeProps ≠ [] ∧ ∀ p ∈ o.nodeProps, Typeable p.1

theorem objectAlive_see (h : ObjectAlive o) (name : Name) : ObjectAlive (see o name) :=
  ⟨h.values, h.required, h.names⟩

theorem anyFrame_alive : ObjectAlive anyFrame := by
  constructor
  · intro name _
    exact free_any
  · intro r hr
    cases hr
  · intro hadd
    cases hadd

theorem members_keyBytes : ∀ {ms : Members} {o : ObjectFrame} {c : Bool}, ms.Ok schemaGrammar o c →
    ∀ key ∈ keys ms, KeyBytes key
  | .close _, _, _, _, key, hk => by cases hk
  | .last _ key' _ _ _ _, o, _, h, key, hk => by
    obtain ⟨-, -, -, -, o', v, he, -⟩ := h
    obtain rfl := List.mem_singleton.mp hk
    exact (entry_iff.mp he).1
  | .more _ key' _ _ _ _ rest, o, _, h, key, hk => by
    obtain ⟨-, -, -, -, o', v, he, -, -, hrest⟩ := h
    rcases List.mem_cons.mp hk with rfl | hk
    · exact (entry_iff.mp he).1
    · exact members_keyBytes hrest key hk

/-- The required names of a satisfiable object can be typed and are allowed. -/
theorem satisfiable_required (h : Satisfiable (.object properties required additional)) :
    ∀ r ∈ required, Typeable r ∧ (additional = true ∨ ∃ x, (r, x) ∈ properties) := by
  intro r hr
  obtain ⟨d, next, hd⟩ := satisfiable_doc h
  cases d with
  | obj ms =>
    have hm := (obj_ok_iff (object_obj properties required additional) id).mp hd
    obtain ⟨hf, -⟩ := members_facts hm
    rcases hf.required r hr with hs | ht
    · cases hs
    · obtain ⟨key, hkey, rfl⟩ := List.mem_map.mp ht
      exact ⟨keyText_typeable (members_keyBytes hm key hkey), hf.allowed _ ht⟩
  | arr items =>
    obtain ⟨_, hv | ⟨hv, -⟩, -⟩ := hd.resolve_left id
    · cases hv
    · cases hv
  | _ => exact hd.elim

theorem free_object (h : Free (.object properties required additional)) :
    ObjectAlive ⟨properties, required, additional, [], []⟩ := by
  constructor
  · intro name hn
    exact free_governed h hn
  · exact satisfiable_required (h.satisfiable _ .self)
  · intro hadd
    have hadd : additional = false := hadd
    subst hadd
    constructor
    · intro hnil
      exact h.untrapped (.object (.inl hnil))
    · intro p hp
      apply Classical.byContradiction
      intro ht
      exact h.untrapped (.object (.inr ⟨p, hp, ht⟩))

/-- A name that continues what is typed so far and that the object allows. -/
theorem fresh_name (ho : ObjectAlive o)
    (hl : (o.additional || o.leadsTo p) = true) :
    ∃ q, Typeable q ∧ o.allows (p ++ q) = true := by
  cases hadd : o.additional with
  | true =>
    obtain ⟨k, -, hmax⟩ := exists_longest List.length ([] :: o.seen) (by simp)
    refine ⟨List.replicate (k.length + 1) 'a', ?_, allows_iff.mpr ⟨.inl hadd, ?_⟩⟩
    · intro c hc
      obtain rfl := (List.mem_replicate.mp hc).2
      decide
    · intro hmem
      have hle := hmax _ (List.mem_cons_of_mem _ hmem)
      simp at hle
      omega
  | false =>
    simp only [hadd, Bool.false_or, ObjectFrame.leadsTo, List.any_eq_true, Bool.and_eq_true,
      Bool.not_eq_true', List.contains_eq_mem, decide_eq_false_iff_not,
      List.isPrefixOf_iff_prefix] at hl
    obtain ⟨⟨name, x⟩, hx, hfresh, q, hq⟩ := hl
    have hname : p ++ q = name := hq
    subst hname
    have ht := (ho.names hadd).2 _ hx
    exact ⟨q, (typeable_append.mp ht).2, allows_iff.mpr ⟨.inr ⟨x, hx⟩, hfresh⟩⟩

def CtxAlive : SchemaCtx → Prop
  | .obj o => ObjectAlive o
  | .arr items => Free items

def CtxsAlive (cs : List SchemaCtx) : Prop := ∀ c ∈ cs, CtxAlive c

/-- The invariant of a run from a free node. -/
def Alive : SchemaMode → Prop
  | .value v cs => Free v ∧ CtxsAlive cs
  | .after cs => CtxsAlive cs
  | .member _ o cs => ObjectAlive o ∧ o.canAdd = true ∧ CtxsAlive cs
  | .key o cs => ObjectAlive o ∧ Typeable o.pendingKey ∧
      (o.additional || o.leadsTo o.pendingKey) = true ∧ CtxsAlive cs
  | .colon o v cs => ObjectAlive o ∧ Free v ∧ CtxsAlive cs
  | .item _ v cs => Free v ∧ CtxsAlive cs
  | .tok t cs => TokAlive t ∧ CtxsAlive cs

theorem ctxsAlive_cons : CtxsAlive (c :: cs) ↔ CtxAlive c ∧ CtxsAlive cs := by
  simp [CtxsAlive]

/-! The missing required keys can be added one by one. -/

def missing (o : ObjectFrame) : List Name := o.required.filter fun r => !o.seen.contains r

theorem mem_missing {o : ObjectFrame} : r ∈ missing o ↔ r ∈ o.required ∧ r ∉ o.seen := by
  simp [missing]

theorem missing_see {o : ObjectFrame} (h : r ∈ missing o) :
    (missing (see o r)).length < (missing o).length := by
  have hfilter : missing (see o r) = (missing o).filter fun n => decide (n ≠ r) := by
    simp only [missing, see_required, see_seen, List.filter_filter]
    apply List.filter_congr
    intro n _
    apply Bool.eq_iff_iff.mpr
    simp
  rw [hfilter]
  apply List.length_filter_lt_length_iff_exists.mpr
  exact ⟨r, h, by simp⟩

theorem complete_of_missing {o : ObjectFrame} (h : missing o = []) : o.complete = true := by
  apply complete_iff.mpr
  intro r hr
  apply Classical.byContradiction
  intro hn
  have hm : r ∈ missing o := mem_missing.mpr ⟨hr, hn⟩
  rw [h] at hm
  cases hm

theorem missing_allowed {o : ObjectFrame} (ho : ObjectAlive o) (h : r ∈ missing o) :
    Typeable r ∧ o.allows r = true := by
  obtain ⟨hr, hs⟩ := mem_missing.mp h
  obtain ⟨ht, ha⟩ := ho.required r hr
  exact ⟨ht, allows_iff.mpr ⟨ha, hs⟩⟩

theorem missing_canAdd {o : ObjectFrame} (ho : ObjectAlive o) (h : r ∈ missing o) :
    o.canAdd = true := by
  obtain ⟨hr, hs⟩ := mem_missing.mp h
  apply canAdd_iff.mpr
  rcases (ho.required r hr).2 with hadd | ⟨x, hx⟩
  · exact .inl hadd
  · exact .inr ⟨_, hx, hs⟩

/-- An open object can be closed once its value is, around anything that can. -/
theorem object_ends {P : SchemaMode → Prop} (hP : reader.Closed P) (o : ObjectFrame)
    (ho : ObjectAlive o) (ha : ∃ w, reader.Ends P (.after cs) w) :
    ∃ w, Follows w.head? ∧ reader.Ends P (.after (.obj o :: cs)) w := by
  cases hm : missing o with
  | nil =>
    obtain ⟨w, hw⟩ := ha
    refine ⟨0x7D :: w, ?_, (Reader.ends_cons ?_).mpr hw⟩
    · intro b hb
      cases hb
      exact .inr (.inr (.inl rfl))
    · have hclose : reader.close o = true := complete_of_missing hm
      simp only [Reader.step, Reader.afterAny, Reader.afterStep, hclose]
      rfl
  | cons r rest =>
    have hr : r ∈ missing o := by simp [hm]
    obtain ⟨ht, hal⟩ := missing_allowed ho hr
    have hless := missing_see hr
    have hnext := object_ends hP (see o r) (objectAlive_see ho r) ha
    have htake := satisfiable_takable ((ho.values r ht).satisfiable _ .self)
    obtain ⟨w, hw⟩ := key_ends false ht hal (value_ends hP htake .value hnext)
    exact ⟨_, comma_follows w, comma_ends (missing_canAdd ho hr) hw⟩
termination_by (missing o).length

theorem ctxs_end {P : SchemaMode → Prop} (hP : reader.Closed P) (h : CtxsAlive cs)
    (hend : P (.after [])) : ∃ w, Follows w.head? ∧ reader.Ends P (.after cs) w := by
  induction cs with
  | nil =>
    refine ⟨[], ?_, _, rfl, hend⟩
    intro b hb
    cases hb
  | cons c cs ih =>
    obtain ⟨hc, hcs⟩ := ctxsAlive_cons.mp h
    obtain ⟨w, -, hw⟩ := ih hcs
    cases c with
    | obj o => exact object_ends hP o hc ⟨w, hw⟩
    | arr items =>
      refine ⟨0x5D :: w, ?_, (Reader.ends_cons ?_).mpr hw⟩
      · intro b hb
        cases hb
        exact .inr (.inr (.inr rfl))
      · simp only [Reader.step, Reader.afterAny, Reader.afterStep]
        rfl

/-! One byte keeps the invariant. -/

theorem enum_alive {candidates : List Literal} (hp : ∀ c ∈ candidates, p <+: c.bytes)
    (hs : enumTokens.step (candidates, p.length) b = .stay k) : TokAlive (.enum k.1 k.2) := by
  have hstep : enumTokens.step (candidates, p.length) b =
      if (SchemaState.alive candidates p.length b).isEmpty then .fail
      else if (SchemaState.alive candidates p.length b).any
            (fun c => c.bytes.length == p.length + 1) &&
          (SchemaState.alive candidates p.length b).all
            (fun c => c.bytes.length == p.length + 1) then .last
      else .stay (SchemaState.alive candidates p.length b, p.length + 1) := rfl
  rw [hstep] at hs
  split at hs
  · cases hs
  rename_i hne
  split at hs
  · cases hs
  rename_i hopen
  cases hs
  have hgo : ∀ c ∈ SchemaState.alive candidates p.length b, (p ++ [b]) <+: c.bytes := by
    intro c hc
    obtain ⟨hc, hb⟩ := mem_alive.mp hc
    exact (prefix_next (hp c hc)).mp hb
  refine ⟨p ++ [b], by simp, hgo, ?_⟩
  apply Classical.byContradiction
  intro hno
  apply hopen
  have hlen : ∀ c ∈ SchemaState.alive candidates p.length b, c.bytes.length = p.length + 1 := by
    intro c hc
    have hle := (hgo c hc).length_le
    simp only [List.length_append, List.length_singleton] at hle
    have hge : ¬ p.length + 1 < c.bytes.length := fun hlt => hno ⟨c, hc, hlt⟩
    omega
  rw [List.isEmpty_iff] at hne
  obtain ⟨c, hc⟩ := List.exists_mem_of_ne_nil _ hne
  simp only [Bool.and_eq_true, List.any_eq_true, List.all_eq_true, beq_iff_eq]
  exact ⟨⟨c, hc, hlen c hc⟩, hlen⟩

theorem start_tok (hs : reader.start v b = some (.tok t)) : TokAlive t := by
  cases v with
  | any =>
    rcases startAny_cases hs with ⟨-, h⟩ | ⟨-, h⟩ | ⟨-, h⟩ | ⟨e, es, -, h⟩ | ⟨-, h⟩
    all_goals cases h
    · trivial
    · exact List.cons_ne_nil e es
    · trivial
  | enum candidates =>
    rw [enum_start] at hs
    split at hs
    · rename_i k hstep
      cases hs
      have hnil : ∀ c ∈ candidates, ([] : Bytes) <+: c.bytes := by simp
      exact enum_alive hnil hstep
    · cases hs
    · cases hs
  | int =>
    obtain ⟨-, h⟩ := openNumber_iff.mp hs
    cases h
    trivial
  | num =>
    obtain ⟨-, h⟩ := openNumber_iff.mp hs
    cases h
    trivial
  | bool =>
    simp only [reader, start] at hs
    split at hs
    · cases hs
      exact List.cons_ne_nil _ _
    split at hs
    · cases hs
      exact List.cons_ne_nil _ _
    · cases hs
  | null =>
    simp only [reader, start] at hs
    split at hs
    · cases hs
      exact List.cons_ne_nil _ _
    · cases hs
  | str =>
    simp only [reader, start] at hs
    split at hs
    · cases hs
    · cases hs
      trivial
  | _ =>
    simp only [reader, start] at hs
    split at hs <;> cases hs

theorem tok_alive (h : TokAlive t) (hs : toks.step t b = .stay t') : TokAlive t' := by
  cases t with
  | enum candidates pos =>
    obtain ⟨p, rfl, hp, -⟩ := h
    have hstep : toks.step (.enum candidates p.length) b =
        (enumTokens.step (candidates, p.length) b).map fun k => .enum k.1 k.2 := rfl
    rw [hstep] at hs
    cases he : enumTokens.step (candidates, p.length) b with
    | stay k =>
      rw [he] at hs
      cases hs
      exact enum_alive hp he
    | _ =>
      rw [he] at hs
      cases hs
  | str k =>
    have hstep : toks.step (.str k) b = (strings.step k b).map .str := rfl
    rw [hstep] at hs
    cases he : strings.step k b with
    | stay k' =>
      rw [he] at hs
      cases hs
      trivial
    | _ =>
      rw [he] at hs
      cases hs
  | num integer f =>
    have hstep : toks.step (.num integer f) b = ((numbers integer).step f b).map (.num integer) :=
      rfl
    rw [hstep] at hs
    cases he : (numbers integer).step f b with
    | stay f' =>
      rw [he] at hs
      cases hs
      trivial
    | _ =>
      rw [he] at hs
      cases hs
  | lit expected =>
    have hstep : toks.step (.lit expected) b = (litTokens.step expected b).map .lit := rfl
    rw [hstep] at hs
    cases expected with
    | nil => cases hs
    | cons e expected =>
      simp only [litTokens] at hs
      split at hs
      · cases hs
      split at hs
      · cases hs
      · rename_i hne
        cases hs
        intro hnil
        exact hne (by rw [hnil]; rfl)

theorem start_alive (hv : Free v) (hcs : CtxsAlive cs) (hs : reader.start v b = some x) :
    Alive (Reader.opened cs x) := by
  cases x with
  | obj o =>
    obtain ⟨-, hobj⟩ := (reader_recognises.obj v b o).mp hs
    rcases hobj with ⟨properties, required, additional, rfl, rfl⟩ | ⟨rfl, rfl⟩
    · have ho := free_object hv
      refine ⟨ho, canAdd_iff.mpr ?_, hcs⟩
      cases hadd : additional with
      | true => exact .inl rfl
      | false =>
        obtain ⟨p, hp⟩ := List.exists_mem_of_ne_nil _ (ho.names hadd).1
        exact .inr ⟨p, hp, by simp⟩
    · exact ⟨anyFrame_alive, rfl, hcs⟩
  | arr items =>
    obtain ⟨-, harr⟩ := (reader_recognises.arr v b items).mp hs
    rcases harr with rfl | ⟨rfl, rfl⟩
    · exact ⟨free_items hv, hcs⟩
    · exact ⟨free_any, hcs⟩
  | tok t => exact ⟨start_tok hs, hcs⟩
  | done => exact hcs

theorem after_alive (h : CtxsAlive cs) (hs : reader.afterAny cs b = some m') : Alive m' := by
  unfold Reader.afterAny at hs
  split at hs
  · cases hs
    exact h
  cases cs with
  | nil => cases hs
  | cons c cs =>
    obtain ⟨hc, hcs⟩ := ctxsAlive_cons.mp h
    cases c with
    | obj o =>
      simp only [Reader.afterStep] at hs
      split at hs
      · split at hs
        · rename_i hadd
          cases hs
          exact ⟨hc, hadd, hcs⟩
        · cases hs
      split at hs
      · split at hs
        · cases hs
          exact hcs
        · cases hs
      · cases hs
    | arr items =>
      simp only [Reader.afterStep] at hs
      split at hs
      · cases hs
        exact ⟨hc, hcs⟩
      split at hs
      · cases hs
        exact hcs
      · cases hs

theorem key_alive (ho : ObjectAlive o) (hp : Typeable o.pendingKey)
    (hl : (o.additional || o.leadsTo o.pendingKey) = true) (hcs : CtxsAlive cs)
    (hs : reader.keyStep o cs b = some m') : Alive m' := by
  have hkey : reader.key o b = keyByte o b := rfl
  unfold Reader.keyStep at hs
  rw [hkey] at hs
  rcases keyByte_cases o b with ⟨-, hk⟩ | ⟨-, hk⟩ | ⟨hw, hq, hb, hge, hk⟩ | ⟨-, -, -, hk⟩
  · rw [hk] at hs
    cases hs
    exact ⟨ho, hp, hl, hcs⟩
  · rw [hk] at hs
    split at hs
    · rename_i hdone
      split at hdone
      · cases hdone
      · cases hdone
    · rename_i hdone
      split at hdone
      · cases hdone
        cases hs
        exact ⟨objectAlive_see ho _, ho.values _ hp, hcs⟩
      · cases hdone
    · cases hs
  · rw [hk] at hs
    split at hs
    · rename_i hstay
      split at hstay
      · rename_i hlead
        cases hstay
        cases hs
        exact ⟨⟨ho.values, ho.required, ho.names⟩,
          typeable_append.mpr ⟨hp, typeable_byte hw hq hb hge⟩, hlead, hcs⟩
      · cases hstay
    · rename_i hdone
      split at hdone <;> cases hdone
    · cases hs
  · rw [hk] at hs
    cases hs

theorem leadsTo_nil {o : ObjectFrame} (h : o.canAdd = true) :
    (o.additional || o.leadsTo []) = true := by
  simpa [ObjectFrame.canAdd, ObjectFrame.leadsTo] using h

theorem alive_step (h : Alive m) (hs : reader.step m b = some m') : Alive m' := by
  cases m with
  | value v cs =>
    obtain ⟨hv, hcs⟩ := h
    simp only [Reader.step] at hs
    split at hs
    · cases hs
      exact ⟨hv, hcs⟩
    · obtain ⟨x, hstart, rfl⟩ := Option.map_eq_some_iff.mp hs
      exact start_alive hv hcs hstart
  | after cs => exact after_alive h hs
  | member mayClose o cs =>
    obtain ⟨ho, hadd, hcs⟩ := h
    simp only [Reader.step] at hs
    split at hs
    · cases hs
      exact ⟨ho, hadd, hcs⟩
    split at hs
    · cases hs
      exact ⟨⟨ho.values, ho.required, ho.names⟩, typeable_nil, leadsTo_nil hadd, hcs⟩
    split at hs
    · split at hs
      · cases hs
        exact hcs
      · cases hs
    · cases hs
  | key o cs =>
    obtain ⟨ho, hp, hl, hcs⟩ := h
    exact key_alive ho hp hl hcs hs
  | colon o v cs =>
    obtain ⟨ho, hv, hcs⟩ := h
    simp only [Reader.step] at hs
    split at hs
    · cases hs
      exact ⟨ho, hv, hcs⟩
    split at hs
    · cases hs
      exact ⟨hv, ctxsAlive_cons.mpr ⟨ho, hcs⟩⟩
    · cases hs
  | item mayClose v cs =>
    obtain ⟨hv, hcs⟩ := h
    simp only [Reader.step] at hs
    split at hs
    · cases hs
      exact ⟨hv, hcs⟩
    split at hs
    · cases hs
      exact hcs
    · obtain ⟨x, hstart, rfl⟩ := Option.map_eq_some_iff.mp hs
      exact start_alive hv (ctxsAlive_cons.mpr ⟨hv, hcs⟩) hstart
  | tok t cs =>
    obtain ⟨ht, hcs⟩ := h
    simp only [Reader.step, Reader.tokStep] at hs
    split at hs
    · rename_i t' hstay
      cases hs
      exact ⟨tok_alive ht hstay, hcs⟩
    · cases hs
      exact hcs
    · exact after_alive hcs hs
    · cases hs

theorem alive_run (h : Alive m) (hr : reader.run m w = some m') : Alive m' := by
  induction w generalizing m with
  | nil =>
    cases hr
    exact h
  | cons b w ih =>
    obtain ⟨m₁, hs, hr⟩ := Option.bind_eq_some_iff.mp hr
    exact ih (alive_step h hs) hr

/-! Every position that keeps the invariant can be finished. -/

theorem free_takable (h : Free v) : Takable v := satisfiable_takable (h.satisfiable v .self)

theorem key_finishes {o : ObjectFrame} (ho : ObjectAlive o) (hp : Typeable o.pendingKey)
    (hl : (o.additional || o.leadsTo o.pendingKey) = true) (hcs : CtxsAlive cs) :
    ∃ w, reader.Acc (.key o cs) w := by
  obtain ⟨q, hq, hal⟩ := fresh_name ho hl
  obtain ⟨key, hkb, rfl⟩ := typeable_key hq
  have hname := typeable_append.mpr ⟨hp, hq⟩
  have hseen : CtxsAlive (.obj (see o (o.pendingKey ++ keyText key)) :: cs) :=
    ctxsAlive_cons.mpr ⟨objectAlive_see ho _, hcs⟩
  have hafter := ctxs_end Reader.accepting_closed hseen rfl
  obtain ⟨w, hw⟩ := value_ends Reader.accepting_closed (free_takable (ho.values _ hname)) .value hafter
  have hcolon : reader.Acc (.colon (see o (o.pendingKey ++ keyText key))
      (governed o.nodeProps (o.pendingKey ++ keyText key)) cs) (0x3A :: w) :=
    (Reader.ends_cons (by simp [Reader.step, isWs])).mpr hw
  have hkey := (key_takes o _ key _).mpr ⟨hkb, hal, rfl, rfl⟩
  exact ⟨_, Reader.keyTakes_ends hkey hcolon⟩

theorem alive_finishes (h : Alive m) : ∃ w, reader.Acc m w := by
  cases m with
  | value v cs =>
    obtain ⟨hv, hcs⟩ := h
    exact value_ends Reader.accepting_closed (free_takable hv) .value
      (ctxs_end Reader.accepting_closed hcs rfl)
  | after cs =>
    obtain ⟨w, -, hw⟩ := ctxs_end Reader.accepting_closed h rfl
    exact ⟨w, hw⟩
  | member mayClose o cs =>
    obtain ⟨ho, hadd, hcs⟩ := h
    have ho' : ObjectAlive { o with pendingKey := [] } := ⟨ho.values, ho.required, ho.names⟩
    obtain ⟨w, hw⟩ := key_finishes ho' typeable_nil (leadsTo_nil hadd) hcs
    exact ⟨_, quote_ends mayClose hw⟩
  | key o cs =>
    obtain ⟨ho, hp, hl, hcs⟩ := h
    exact key_finishes ho hp hl hcs
  | colon o v cs =>
    obtain ⟨ho, hv, hcs⟩ := h
    have hseen : CtxsAlive (.obj o :: cs) := ctxsAlive_cons.mpr ⟨ho, hcs⟩
    have hafter := ctxs_end Reader.accepting_closed hseen rfl
    obtain ⟨w, hw⟩ := value_ends Reader.accepting_closed (free_takable hv) .value hafter
    exact ⟨0x3A :: w, (Reader.ends_cons (by simp [Reader.step, isWs])).mpr hw⟩
  | item mayClose v cs =>
    obtain ⟨hv, hcs⟩ := h
    exact value_ends Reader.accepting_closed (free_takable hv) (.item mayClose)
      (ctxs_end Reader.accepting_closed (ctxsAlive_cons.mpr ⟨hv, hcs⟩) rfl)
  | tok t cs =>
    obtain ⟨ht, hcs⟩ := h
    obtain ⟨u, hu⟩ := tok_ends ht
    obtain ⟨w, hf, hw⟩ := ctxs_end Reader.accepting_closed hcs rfl
    exact ⟨u ++ w, Reader.takes_ends Reader.accepting_closed (hu _ hf) hw⟩

theorem run_append (m : SchemaMode) (u w : Bytes) :
    reader.run m (u ++ w) = (reader.run m u).bind fun m' => reader.run m' w := by
  induction u generalizing m with
  | nil => rfl
  | cons b u ih =>
    simp only [List.cons_append, Reader.run]
    cases hs : reader.step m b with
    | none => rfl
    | some m' => exact ih m'

theorem acc_append (hr : reader.run m u = some m') : reader.Acc m (u ++ w) ↔ reader.Acc m' w := by
  simp only [Reader.Acc, Reader.Ends, run_append, hr, Option.bind_some]

end Flambeau.Runtime.SchemaReader

namespace Flambeau.Runtime.JsonSchema
open Flambeau.Json Flambeau.Runtime.SchemaReader

/-- With every sub-node satisfiable, every accepted prefix can be completed
exactly when the compiled schema holds no trap. -/
theorem prefixes_finish_iff (toVec : Value → Literal) (schema : Value)
    (hsat : AllSatisfiable (compile toVec schema)) :
    (∀ u, (SchemaState.new toVec schema).Takes u →
        ∃ w, (SchemaState.new toVec schema).Accepts (u ++ w)) ↔
      ¬ Trap (compile toVec schema) := by
  have hrep : Rep (compile toVec schema) (.value (compile toVec schema) [])
      (SchemaState.new toVec schema) := .root false
  constructor
  · intro h htrap
    have htrapped := trap_reached (m := .value (compile toVec schema) []) htrap hsat .value
    obtain ⟨u, m', hrun, hstuck⟩ := htrapped
    obtain ⟨w, hw⟩ := h u ((takes_iff_run hrep u).mpr ⟨m', hrun⟩)
    rw [accepts_iff_acc hrep, acc_append hrun] at hw
    exact keyStuck_dead hstuck w hw
  · intro htrap u hu
    obtain ⟨m', hrun⟩ := (takes_iff_run hrep u).mp hu
    have halive : Alive (.value (compile toVec schema) []) := ⟨⟨hsat, htrap⟩, by simp [CtxsAlive]⟩
    obtain ⟨w, hw⟩ := alive_finishes (alive_run halive hrun)
    exact ⟨w, by rwa [accepts_iff_acc hrep, acc_append hrun]⟩

theorem integerProperty_satisfiable (toVec : Value → Literal) :
    AllSatisfiable (compile toVec (integerProperty ['a'])) := by
  rw [compile_integerProperty]
  intro sub hs
  cases hs with
  | self => exact ⟨[0x7B, 0x7D], by decide +kernel⟩
  | property hget hs =>
    simp only [Map.get] at hget
    split at hget
    · cases hget
      cases hs
      exact ⟨[0x30], by decide +kernel⟩
    · cases hget

/-- Every accepted prefix can be completed where `a` is an integer property. -/
theorem integer_property_finishes :
    AllSatisfiable (compile (fun _ => nullLiteral) (integerProperty ['a'])) ∧
    ∀ u, (SchemaState.new (fun _ => nullLiteral) (integerProperty ['a'])).Takes u →
      ∃ w, (SchemaState.new (fun _ => nullLiteral) (integerProperty ['a'])).Accepts (u ++ w) := by
  refine ⟨integerProperty_satisfiable _, ?_⟩
  apply (prefixes_finish_iff (fun _ => nullLiteral) (integerProperty ['a'])
    (integerProperty_satisfiable _)).mpr
  rw [compile_integerProperty]
  intro htrap
  cases htrap with
  | object hroom =>
    rcases hroom with hnil | ⟨p, hp, ht⟩
    · cases hnil
    · obtain rfl := List.mem_singleton.mp hp
      apply ht
      intro c hc
      obtain rfl := List.mem_singleton.mp hc
      decide
  | property _ hget ht =>
    simp only [Map.get] at hget
    split at hget
    · cases hget
      cases ht
    · cases hget

/-- A schema of an object with no properties. -/
def bareObject : Value := .object [(typeKey, .string ['o', 'b', 'j', 'e', 'c', 't'])]

theorem compile_bareObject (toVec : Value → Literal) :
    compile toVec bareObject = .object [] [] false := by
  simp [bareObject, compile, compileObject, Map.get, constKey, enumKey, typeKey, propertiesKey,
    requiredNames, requiredKey, additionalAllowed, additionalKey, Value.asStr]

/-- `{` and a quote are accepted against `{"type": "object"}`, and nothing completes them. -/
theorem bare_object_stuck :
    ¬ ∀ (toVec : Value → Literal) (schema : Value), AllSatisfiable (compile toVec schema) →
      ∀ u, (SchemaState.new toVec schema).Takes u →
        ∃ w, (SchemaState.new toVec schema).Accepts (u ++ w) := by
  intro h
  have hsat : AllSatisfiable (compile (fun _ => nullLiteral) bareObject) := by
    rw [compile_bareObject]
    intro sub hs
    cases hs with
    | self => exact ⟨[0x7B, 0x7D], by decide +kernel⟩
    | property hget _ => cases hget
  obtain ⟨w, hw⟩ := h (fun _ => nullLiteral) bareObject hsat [0x7B, 0x22] (by decide +kernel)
  have hrun : reader.run (.value (compile (fun _ => nullLiteral) bareObject) []) [0x7B, 0x22] =
      some (.key ⟨[], [], false, [], []⟩ []) := by
    rw [compile_bareObject]
    rfl
  have hrep : Rep (compile (fun _ => nullLiteral) bareObject)
      (.value (compile (fun _ => nullLiteral) bareObject) [])
      (SchemaState.new (fun _ => nullLiteral) bareObject) := .root false
  rw [accepts_iff_acc hrep, acc_append hrun] at hw
  apply keyStuck_dead ⟨_, _, rfl, rfl, ?_⟩ w hw
  intro name _
  rfl

end Flambeau.Runtime.JsonSchema
