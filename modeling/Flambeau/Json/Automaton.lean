import Flambeau.Json.Document

namespace Flambeau.Json

/-- What a byte does to an open token. -/
inductive TokStep (T : Type) where
  | stay (t : T)
  /-- The byte is the token's last. -/
  | last
  /-- The token was over before the byte. -/
  | over
  | fail

def TokStep.map (f : T → T') : TokStep T → TokStep T'
  | .stay t => .stay (f t)
  | .last => .last
  | .over => .over
  | .fail => .fail

/-- A recogniser of tokens, byte by byte. -/
structure Tokens (T : Type) where
  step : T → UInt8 → TokStep T
  /-- The token may end with the input. -/
  eos : T → Bool

namespace Tokens

variable (R : Tokens T)

/-- The token takes exactly `w`, with `next` the byte after it. -/
def Takes (t : T) : Bytes → Option UInt8 → Prop
  | [], none => R.eos t = true
  | [], some b => R.step t b = .over
  | b :: w, next =>
    match R.step t b with
    | .stay t' => Takes t' w next
    | .last => w = []
    | _ => False

/-- A recogniser inside another takes what it takes alone. -/
theorem takes_map {R : Tokens T} {S : Tokens S'} (f : S' → T)
    (hstep : ∀ t b, R.step (f t) b = (S.step t b).map f) (heos : ∀ t, R.eos (f t) = S.eos t)
    (t : S') (w : Bytes) (next : Option UInt8) : R.Takes (f t) w next ↔ S.Takes t w next := by
  induction w generalizing t with
  | nil =>
    cases next with
    | none => simp only [Takes, heos]
    | some b =>
      simp only [Takes, hstep]
      cases S.step t b <;> simp [TokStep.map]
  | cons b w ih =>
    simp only [Takes, hstep]
    cases S.step t b with
    | stay t' => exact ih t'
    | _ => rfl

end Tokens

/-- What the first byte of a value opens. -/
inductive Opening (V O T : Type) where
  | obj (o : O)
  | arr (v : V)
  | tok (t : T)
  /-- A value of one byte. -/
  | done

inductive KeyStep (V O K : Type) where
  | stay (k : K)
  | done (o : O) (v : V)
  | fail

/-- The token recognisers of a pushdown reader of JSON. -/
structure Reader (V O T K : Type) where
  start : V → UInt8 → Option (Opening V O T)
  tok : Tokens T
  openKey : O → K
  key : K → UInt8 → KeyStep V O K
  close : O → Bool
  comma : O → Bool
  trailing : Bool

/-- A container around the value being read. -/
inductive Ctx (V O : Type) where
  | obj (o : O)
  | arr (v : V)

inductive Mode (V O T K : Type) where
  | value (v : V) (cs : List (Ctx V O))
  | after (cs : List (Ctx V O))
  | member (mayClose : Bool) (o : O) (cs : List (Ctx V O))
  | key (k : K) (cs : List (Ctx V O))
  | colon (o : O) (v : V) (cs : List (Ctx V O))
  | item (mayClose : Bool) (v : V) (cs : List (Ctx V O))
  | tok (t : T) (cs : List (Ctx V O))

namespace Reader

variable (R : Reader V O T K)

def opened (cs : List (Ctx V O)) : Opening V O T → Mode V O T K
  | .obj o => .member true o cs
  | .arr v => .item true v cs
  | .tok t => .tok t cs
  | .done => .after cs

/-- A byte that is not whitespace, after a value has closed. -/
def afterStep : List (Ctx V O) → UInt8 → Option (Mode V O T K)
  | [], _ => none
  | .obj o :: cs, b =>
    if b = 0x2C then if R.comma o then some (.member R.trailing o cs) else none
    else if b = 0x7D then if R.close o then some (.after cs) else none
    else none
  | .arr v :: cs, b =>
    if b = 0x2C then some (.item R.trailing v cs)
    else if b = 0x5D then some (.after cs)
    else none

/-- Any byte after a value has closed. -/
def afterAny (cs : List (Ctx V O)) (b : UInt8) : Option (Mode V O T K) :=
  if isWs b then some (.after cs) else R.afterStep cs b

def tokStep (t : T) (cs : List (Ctx V O)) (b : UInt8) : Option (Mode V O T K) :=
  match R.tok.step t b with
  | .stay t' => some (.tok t' cs)
  | .last => some (.after cs)
  | .over => R.afterAny cs b
  | .fail => none

def keyStep (k : K) (cs : List (Ctx V O)) (b : UInt8) : Option (Mode V O T K) :=
  match R.key k b with
  | .stay k' => some (.key k' cs)
  | .done o v => some (.colon o v cs)
  | .fail => none

/-- One byte of the pushdown reader; tokens and keys see whitespace, every
other mode skips it. -/
def step : Mode V O T K → UInt8 → Option (Mode V O T K)
  | .tok t cs, b => R.tokStep t cs b
  | .key k cs, b => R.keyStep k cs b
  | .after cs, b => R.afterAny cs b
  | .value v cs, b =>
    if isWs b then some (.value v cs) else (R.start v b).map (opened cs)
  | .member mayClose o cs, b =>
    if isWs b then some (.member mayClose o cs)
    else if b = 0x22 then some (.key (R.openKey o) cs)
    else if b = 0x7D ∧ mayClose = true then if R.close o then some (.after cs) else none
    else none
  | .colon o v cs, b =>
    if isWs b then some (.colon o v cs)
    else if b = 0x3A then some (.value v (.obj o :: cs))
    else none
  | .item mayClose v cs, b =>
    if isWs b then some (.item mayClose v cs)
    else if b = 0x5D ∧ mayClose = true then some (.after cs)
    else (R.start v b).map (opened (.arr v :: cs))

def accepting : Mode V O T K → Bool
  | .after [] => true
  | .tok t [] => R.tok.eos t
  | _ => false

def run (m : Mode V O T K) : Bytes → Option (Mode V O T K)
  | [] => some m
  | b :: w => (R.step m b).bind (fun m' => run m' w)

/-- The reader takes `w` from `m`, to a mode with the property. -/
def Ends (P : Mode V O T K → Prop) (m : Mode V O T K) (w : Bytes) : Prop :=
  ∃ m', R.run m w = some m' ∧ P m'

/-- The reader takes `w` from `m` and may stop there. -/
abbrev Acc (m : Mode V O T K) (w : Bytes) : Prop := R.Ends (fun m => R.accepting m = true) m w

/-- What holds where a value has ended holds of a token that may end there. -/
def Closed (P : Mode V O T K → Prop) : Prop :=
  ∀ t cs, R.tok.eos t = true → P (.after cs) → P (.tok t cs)

/-- The bytes of a leaf due at `v`. -/
def Token (v : V) (w : Bytes) (next : Option UInt8) : Prop :=
  ∃ b u, w = b :: u ∧
    match R.start v b with
    | some (.tok t) => R.tok.Takes t u next
    | some .done => u = []
    | _ => False

/-- The key takes exactly `w`, up to its closing quote. -/
def KeyTakes (k : K) : Bytes → O → V → Prop
  | [], o, v => R.key k 0x22 = .done o v
  | b :: w, o, v => ∃ k', R.key k b = .stay k' ∧ KeyTakes k' w o v

end Reader

/-- The reader's recognisers take the tokens of the grammar. -/
structure Recognises (R : Reader V O T K) (G : Grammar V O) : Prop where
  first : ∀ v b x, R.start v b = some x → isWs b = false ∧ b ≠ 0x5D
  leaf : ∀ v w next, Follows next →
    (R.Token v w next ↔ ∃ d : Doc, d.bytes = w ∧ G.leaf v d next)
  arr : ∀ v b v', R.start v b = some (.arr v') ↔ b = 0x5B ∧ G.arr v v'
  obj : ∀ v b o, R.start v b = some (.obj o) ↔ b = 0x7B ∧ G.obj v o
  quote : ∀ k b o v, R.key k b = .done o v → b = 0x22
  entry : ∀ o body o' v, R.KeyTakes (R.openKey o) body o' v ↔ G.entry o body o' v
  close : ∀ o, R.close o = true ↔ G.close o
  comma : ∀ o, R.comma o = true ↔ G.comma o
  trailing : R.trailing = G.trailing

namespace Reader

variable {R : Reader V O T K} {G : Grammar V O}

theorem token_nil : ¬ R.Token v [] next := by
  rintro ⟨b, u, h, -⟩
  cases h

theorem token_cons : R.Token v (b :: u) next ↔
    match R.start v b with
    | some (.tok t) => R.tok.Takes t u next
    | some .done => u = []
    | _ => False := by
  constructor
  · rintro ⟨b', u', h, ht⟩
    cases h
    exact ht
  · intro h
    exact ⟨b, u, rfl, h⟩

theorem ends_cons (h : R.step m b = some m') : R.Ends P m (b :: w) ↔ R.Ends P m' w := by
  simp [Ends, run, h]

theorem ends_uncons (h : R.Ends P m (b :: w)) : ∃ m', R.step m b = some m' ∧ R.Ends P m' w := by
  obtain ⟨m'', hrun, hacc⟩ := h
  simp only [run, Option.bind_eq_some_iff] at hrun
  obtain ⟨m', hs, hrun⟩ := hrun
  exact ⟨m', hs, m'', hrun, hacc⟩

/-- The modes that skip whitespace. -/
def Skips : Mode V O T K → Prop
  | .tok _ _ => False
  | .key _ _ => False
  | _ => True

theorem step_ws (hm : Skips m) (hb : isWs b = true) : R.step m b = some m := by
  cases m with
  | tok t cs => exact hm.elim
  | key k cs => exact hm.elim
  | _ => simp [step, afterAny, hb]

theorem ends_ws (hp : IsWs pre) (hm : Skips m) : R.Ends P m (pre ++ w) ↔ R.Ends P m w := by
  induction pre with
  | nil => rfl
  | cons b pre ih =>
    obtain ⟨hb, hpre⟩ := isWs_cons.mp hp
    rw [List.cons_append, ends_cons (step_ws hm hb)]
    exact ih hpre

/-- A mode that may stop may stop after a token that ends there. -/
theorem accepting_closed : R.Closed fun m => R.accepting m = true := by
  intro t cs ht hacc
  cases cs with
  | nil => exact ht
  | cons c cs => cases hacc

/-! Every tree of the grammar is taken. -/

section

variable {P : Mode V O T K → Prop}

theorem takes_ends (hP : R.Closed P) (ht : R.tok.Takes t u w.head?) (ha : R.Ends P (.after cs) w) :
    R.Ends P (.tok t cs) (u ++ w) := by
  induction u generalizing t with
  | nil =>
    cases w with
    | nil =>
      obtain ⟨m', hrun, hend⟩ := ha
      cases hrun
      exact ⟨_, rfl, hP t cs ht hend⟩
    | cons b w =>
      obtain ⟨m', hs, ha'⟩ := ends_uncons ha
      refine (ends_cons ?_).mpr ha'
      have hover : R.tok.step t b = .over := ht
      simp only [step, tokStep, hover]
      exact hs
  | cons b u ih =>
    simp only [Tokens.Takes] at ht
    rw [List.cons_append]
    split at ht
    · rename_i t' hstay
      exact (ends_cons (by simp [step, tokStep, hstay])).mpr (ih ht)
    · rename_i hlast
      subst ht
      exact (ends_cons (by simp [step, tokStep, hlast])).mpr ha
    · exact ht.elim

theorem keyTakes_ends (hk : R.KeyTakes k body o v) (ha : R.Ends P (.colon o v cs) w) :
    R.Ends P (.key k cs) (body ++ 0x22 :: w) := by
  induction body generalizing k with
  | nil =>
    have hdone : R.key k 0x22 = .done o v := hk
    exact (ends_cons (by simp [step, keyStep, hdone])).mpr ha
  | cons b body ih =>
    obtain ⟨k', hstay, hk'⟩ := hk
    exact (ends_cons (by simp [step, keyStep, hstay])).mpr (ih hk')

/-- The modes in which a value is due, with the containers around it. -/
inductive Expects (v : V) : Mode V O T K → List (Ctx V O) → Prop where
  | value : Expects v (.value v cs) cs
  | item (mayClose : Bool) : Expects v (.item mayClose v cs) (.arr v :: cs)

theorem expects_step (hR : Recognises R G) (h : Expects v m cs) (hs : R.start v b = some x) :
    R.step m b = some (opened cs x) := by
  obtain ⟨hw, hb⟩ := hR.first v b x hs
  cases h with
  | value => simp [step, hw, hs]
  | item => simp [step, hw, hb, hs]

theorem token_ends (hR : Recognises R G) (hP : R.Closed P) (he : Expects v m cs) (ht : R.Token v u w.head?)
    (ha : R.Ends P (.after cs) w) : R.Ends P m (u ++ w) := by
  obtain ⟨b, u, rfl, ht⟩ := ht
  split at ht
  · rename_i t hs
    exact (ends_cons (expects_step hR he hs)).mpr (takes_ends hP ht ha)
  · rename_i hs
    subst ht
    exact (ends_cons (expects_step hR he hs)).mpr ha
  · exact ht.elim

theorem leaf_ends (hR : Recognises R G) (hP : R.Closed P) (he : Expects v m cs) {d : Doc}
    (hf : Follows w.head?) (hl : G.leaf v d w.head?) (ha : R.Ends P (.after cs) w) :
    R.Ends P m (d.bytes ++ w) :=
  token_ends hR hP he ((hR.leaf v d.bytes w.head? hf).mpr ⟨d, rfl, hl⟩) ha

theorem entry_ends {key : Bytes} (hR : Recognises R G) (mayClose : Bool) (hpre : IsWs pre)
    (hmid : IsWs mid) (hsep : IsWs sep)
    (hk : G.entry o key o' v) (ha : R.Ends P (.value v (.obj o' :: cs)) w) :
    R.Ends P (.member mayClose o cs) (entryBytes pre key mid sep w) := by
  have hvalue : R.Ends P (.value v (.obj o' :: cs)) (sep ++ w) := (ends_ws hsep (by trivial)).mpr ha
  have hcolon : R.Ends P (.colon o' v cs) (mid ++ 0x3A :: (sep ++ w)) :=
    (ends_ws hmid (by trivial)).mpr ((ends_cons (by simp [step, isWs])).mpr hvalue)
  have hbody : R.Ends P (.key (R.openKey o) cs) (key ++ 0x22 :: (mid ++ 0x3A :: (sep ++ w))) :=
    keyTakes_ends ((hR.entry o key o' v).mpr hk) hcolon
  exact (ends_ws hpre (by trivial)).mpr ((ends_cons (by simp [step, isWs])).mpr hbody)

mutual

theorem doc_ends (hR : Recognises R G) (hP : R.Closed P) (he : Expects v m cs) (hf : Follows w.head?)
    (ha : R.Ends P (.after cs) w) : ∀ {d : Doc}, d.Ok G v w.head? → R.Ends P m (d.bytes ++ w)
  | .lit _, hd => leaf_ends hR hP he hf hd ha
  | .num _, hd => leaf_ends hR hP he hf hd ha
  | .str _, hd => leaf_ends hR hP he hf hd ha
  | .arr items, hd => by
    rcases hd with hd | ⟨v', harr, hi⟩
    · exact leaf_ends hR hP he hf hd ha
    · have hs : R.start v 0x5B = some (.arr v') := (hR.arr v 0x5B v').mpr ⟨rfl, harr⟩
      exact (ends_cons (expects_step hR he hs)).mpr (items_ends hR hP ha hi)
  | .obj members, hd => by
    rcases hd with hd | ⟨o, hobj, hm⟩
    · exact leaf_ends hR hP he hf hd ha
    · have hs : R.start v 0x7B = some (.obj o) := (hR.obj v 0x7B o).mpr ⟨rfl, hobj⟩
      exact (ends_cons (expects_step hR he hs)).mpr (members_ends hR hP ha hm)

theorem items_ends (hR : Recognises R G) (hP : R.Closed P) (ha : R.Ends P (.after cs) w) :
    ∀ {mayClose : Bool} {items : Items}, items.Ok G v mayClose →
      R.Ends P (.item mayClose v cs) (items.bytes ++ w)
  | _, .close pad, hi => by
    obtain ⟨hpad, rfl⟩ := hi
    rw [Items.bytes, List.append_assoc]
    refine (ends_ws hpad (by trivial)).mpr ?_
    exact (ends_cons (by simp [step, isWs])).mpr ha
  | mayClose, .last pre d post, hi => by
    obtain ⟨hpre, hd, hpost⟩ := hi
    have hclose : R.Ends P (.after (.arr v :: cs)) (0x5D :: w) :=
      (ends_cons (by simp [step, isWs, afterAny, afterStep])).mpr ha
    have hafter := (ends_ws hpost (by trivial)).mpr hclose
    rw [head_append post 0x5D w] at hd
    have hdoc := doc_ends hR hP (.item mayClose) (follows_ws hpost (by simp)) hafter hd
    simp only [Items.bytes, List.append_assoc, List.cons_append, List.nil_append]
    exact (ends_ws hpre (by trivial)).mpr hdoc
  | mayClose, .more pre d post rest, hi => by
    obtain ⟨hpre, hd, hpost, hrest⟩ := hi
    rw [← hR.trailing] at hrest
    have hnext : R.Ends P (.after (.arr v :: cs)) (0x2C :: (rest.bytes ++ w)) :=
      (ends_cons (by simp [step, isWs, afterAny, afterStep])).mpr (items_ends hR hP ha hrest)
    have hafter := (ends_ws hpost (by trivial)).mpr hnext
    rw [head_append post 0x2C (rest.bytes ++ w)] at hd
    have hdoc := doc_ends hR hP (.item mayClose) (follows_ws hpost (by simp)) hafter hd
    simp only [Items.bytes, List.append_assoc, List.cons_append]
    exact (ends_ws hpre (by trivial)).mpr hdoc

theorem members_ends (hR : Recognises R G) (hP : R.Closed P) (ha : R.Ends P (.after cs) w) :
    ∀ {o : O} {mayClose : Bool} {members : Members}, members.Ok G o mayClose →
      R.Ends P (.member mayClose o cs) (members.bytes ++ w)
  | o, _, .close pad, hm => by
    obtain ⟨hpad, rfl, hc⟩ := hm
    rw [Members.bytes, List.append_assoc]
    refine (ends_ws hpad (by trivial)).mpr ?_
    exact (ends_cons (by simp [step, isWs, (hR.close o).mpr hc])).mpr ha
  | o, mayClose, .last pre key mid sep d post, hm => by
    obtain ⟨hpre, hmid, hsep, hpost, o', v, hk, hd, hc⟩ := hm
    have hclose : R.Ends P (.after (.obj o' :: cs)) (0x7D :: w) :=
      (ends_cons (by simp [step, isWs, afterAny, afterStep, (hR.close o').mpr hc])).mpr ha
    have hafter := (ends_ws hpost (by trivial)).mpr hclose
    rw [head_append post 0x7D w] at hd
    have hdoc := doc_ends hR hP .value (follows_ws hpost (by simp)) hafter hd
    have hentry := entry_ends hR mayClose hpre hmid hsep hk hdoc
    simpa [Members.bytes, entryBytes] using hentry
  | o, mayClose, .more pre key mid sep d post rest, hm => by
    obtain ⟨hpre, hmid, hsep, hpost, o', v, hk, hd, hc, hrest⟩ := hm
    rw [← hR.trailing] at hrest
    have hnext : R.Ends P (.after (.obj o' :: cs)) (0x2C :: (rest.bytes ++ w)) :=
      (ends_cons (by simp [step, isWs, afterAny, afterStep, (hR.comma o').mpr hc])).mpr
        (members_ends hR hP ha hrest)
    have hafter := (ends_ws hpost (by trivial)).mpr hnext
    rw [head_append post 0x2C (rest.bytes ++ w)] at hd
    have hdoc := doc_ends hR hP .value (follows_ws hpost (by simp)) hafter hd
    have hentry := entry_ends hR mayClose hpre hmid hsep hk hdoc
    simpa [Members.bytes, entryBytes] using hentry

end

end

/-! What is taken is read by a tree of the grammar. -/

def Padded (P : Bytes → Prop) (w : Bytes) : Prop := ∃ pre v, w = pre ++ v ∧ IsWs pre ∧ P v

/-- What the open containers still require, from the delimiter on. -/
def Tail (G : Grammar V O) : List (Ctx V O) → Bytes → Prop
  | [], w => w = []
  | .obj o :: cs, w =>
    (∃ r, w = 0x7D :: r ∧ G.close o ∧ Padded (Tail G cs) r) ∨
      ∃ (members : Members) (r : Bytes), w = 0x2C :: (members.bytes ++ r) ∧ G.comma o ∧
        members.Ok G o G.trailing ∧ Padded (Tail G cs) r
  | .arr v :: cs, w =>
    (∃ r, w = 0x5D :: r ∧ Padded (Tail G cs) r) ∨
      ∃ (items : Items) (r : Bytes), w = 0x2C :: (items.bytes ++ r) ∧
        items.Ok G v G.trailing ∧ Padded (Tail G cs) r

/-- A value, the whitespace after it, and what the open containers require. -/
def Value (G : Grammar V O) (v : V) (cs : List (Ctx V O)) (w : Bytes) : Prop :=
  ∃ (d : Doc) (post r : Bytes), w = d.bytes ++ (post ++ r) ∧ d.Ok G v (post ++ r).head? ∧
    IsWs post ∧ Tail G cs r

def Colon (G : Grammar V O) (o : O) (v : V) (cs : List (Ctx V O)) (w : Bytes) : Prop :=
  ∃ r, w = 0x3A :: r ∧ Padded (Value G v (.obj o :: cs)) r

/-- What the rest of an accepted text is, by mode. -/
def Demand (R : Reader V O T K) (G : Grammar V O) : Mode V O T K → Bytes → Prop
  | .value v cs, w => Padded (Value G v cs) w
  | .after cs, w => Padded (Tail G cs) w
  | .member mayClose o cs, w => ∃ (members : Members) (r : Bytes), w = members.bytes ++ r ∧
      members.Ok G o mayClose ∧ Padded (Tail G cs) r
  | .key k cs, w => ∃ body o v r, w = body ++ 0x22 :: r ∧ R.KeyTakes k body o v ∧
      Padded (Colon G o v cs) r
  | .colon o v cs, w => Padded (Colon G o v cs) w
  | .item mayClose v cs, w => ∃ (items : Items) (r : Bytes), w = items.bytes ++ r ∧
      items.Ok G v mayClose ∧ Padded (Tail G cs) r
  | .tok t cs, w => ∃ u post r, w = u ++ (post ++ r) ∧ R.tok.Takes t u (post ++ r).head? ∧
      IsWs post ∧ Tail G cs r

theorem padded_self (h : P w) : Padded P w := ⟨[], w, rfl, isWs_nil, h⟩

theorem padded_ws (hb : isWs b = true) (h : Padded P w) : Padded P (b :: w) := by
  obtain ⟨pre, v, rfl, hpre, hv⟩ := h
  exact ⟨b :: pre, v, rfl, by simp [hb, hpre], hv⟩

/-- A whitespace byte joins the leading whitespace of what follows. -/
theorem items_ws {items : Items} (hb : isWs b = true) (h : items.Ok G v mayClose) :
    ∃ items' : Items, items'.bytes = b :: items.bytes ∧ items'.Ok G v mayClose := by
  cases items with
  | close pad => exact ⟨.close (b :: pad), rfl, by simp_all [Items.Ok]⟩
  | last pre d post => exact ⟨.last (b :: pre) d post, rfl, by simp_all [Items.Ok]⟩
  | more pre d post rest => exact ⟨.more (b :: pre) d post rest, rfl, by simp_all [Items.Ok]⟩

theorem members_ws {members : Members} (hb : isWs b = true) (h : members.Ok G o mayClose) :
    ∃ members' : Members, members'.bytes = b :: members.bytes ∧ members'.Ok G o mayClose := by
  cases members with
  | close pad => exact ⟨.close (b :: pad), rfl, by simp_all [Members.Ok]⟩
  | last pre key mid sep d post =>
    exact ⟨.last (b :: pre) key mid sep d post, rfl, by simp_all [Members.Ok]⟩
  | more pre key mid sep d post rest =>
    exact ⟨.more (b :: pre) key mid sep d post rest, rfl, by simp_all [Members.Ok]⟩

theorem demand_ws (hm : Skips m) (hb : isWs b = true) (h : Demand R G m w) :
    Demand R G m (b :: w) := by
  cases m with
  | tok t cs => exact hm.elim
  | key k cs => exact hm.elim
  | member mayClose o cs =>
    obtain ⟨members, r, rfl, hok, hr⟩ := h
    obtain ⟨members', hbytes, hok'⟩ := members_ws hb hok
    exact ⟨members', r, by rw [hbytes]; rfl, hok', hr⟩
  | item mayClose v cs =>
    obtain ⟨items, r, rfl, hok, hr⟩ := h
    obtain ⟨items', hbytes, hok'⟩ := items_ws hb hok
    exact ⟨items', r, by rw [hbytes]; rfl, hok', hr⟩
  | value v cs => exact padded_ws hb h
  | after cs => exact padded_ws hb h
  | colon o v cs => exact padded_ws hb h

theorem tail_follows (hp : IsWs post) (h : Tail G cs r) : Follows (post ++ r).head? := by
  cases cs with
  | nil =>
    cases h
    intro c hc
    cases post with
    | nil => cases hc
    | cons p post =>
      cases hc
      exact .inl (isWs_cons.mp hp).1
  | cons c cs =>
    cases c with
    | obj o =>
      rcases h with ⟨r, rfl, -⟩ | ⟨members, r, rfl, -⟩ <;> exact follows_ws hp (by simp)
    | arr v =>
      rcases h with ⟨r, rfl, -⟩ | ⟨items, r, rfl, -⟩ <;> exact follows_ws hp (by simp)

theorem token_value (hR : Recognises R G) (ht : R.Token v u (post ++ r).head?) (hp : IsWs post)
    (hr : Tail G cs r) : Value G v cs (u ++ (post ++ r)) := by
  obtain ⟨d, rfl, hl⟩ := (hR.leaf v u _ (tail_follows hp hr)).mp ht
  exact ⟨d, post, r, rfl, ok_of_leaf hl, hp, hr⟩

/-- What the first byte of a value opens, the rest of the value closes. -/
theorem start_demand (hR : Recognises R G) (hs : R.start v b = some x)
    (h : Demand R G (opened cs x) w) : Value G v cs (b :: w) := by
  cases x with
  | obj o =>
    obtain ⟨rfl, hobj⟩ := (hR.obj v b o).mp hs
    obtain ⟨members, r, rfl, hok, post, r, rfl, hpost, hr⟩ := h
    exact ⟨.obj members, post, r, rfl, .inr ⟨o, hobj, hok⟩, hpost, hr⟩
  | arr v' =>
    obtain ⟨rfl, harr⟩ := (hR.arr v b v').mp hs
    obtain ⟨items, r, rfl, hok, post, r, rfl, hpost, hr⟩ := h
    exact ⟨.arr items, post, r, rfl, .inr ⟨v', harr, hok⟩, hpost, hr⟩
  | tok t =>
    obtain ⟨u, post, r, rfl, ht, hpost, hr⟩ := h
    have htoken : R.Token v (b :: u) (post ++ r).head? := ⟨b, u, rfl, by rw [hs]; exact ht⟩
    exact token_value hR htoken hpost hr
  | done =>
    obtain ⟨post, r, rfl, hpost, hr⟩ := h
    have htoken : R.Token v [b] (post ++ r).head? := ⟨b, [], rfl, by rw [hs]⟩
    exact token_value hR htoken hpost hr

theorem after_demand (hR : Recognises R G) (hs : R.afterAny cs b = some m')
    (h : Demand R G m' w) : Padded (Tail G cs) (b :: w) := by
  unfold afterAny at hs
  split at hs
  · rename_i hb
    cases hs
    exact padded_ws hb h
  cases cs with
  | nil => cases hs
  | cons c cs =>
    cases c with
    | obj o =>
      simp only [afterStep] at hs
      split at hs
      · rename_i hb
        split at hs
        · rename_i hc
          cases hs
          subst hb
          obtain ⟨members, r, rfl, hok, hr⟩ := h
          rw [hR.trailing] at hok
          exact padded_self (.inr ⟨members, r, rfl, (hR.comma o).mp hc, hok, hr⟩)
        · cases hs
      split at hs
      · rename_i hb
        split at hs
        · rename_i hc
          cases hs
          subst hb
          exact padded_self (.inl ⟨w, rfl, (hR.close o).mp hc, h⟩)
        · cases hs
      · cases hs
    | arr v =>
      simp only [afterStep] at hs
      split at hs
      · rename_i hb
        cases hs
        subst hb
        obtain ⟨items, r, rfl, hok, hr⟩ := h
        rw [hR.trailing] at hok
        exact padded_self (.inr ⟨items, r, rfl, hok, hr⟩)
      split at hs
      · rename_i hb
        cases hs
        subst hb
        exact padded_self (.inl ⟨w, rfl, h⟩)
      · cases hs

theorem tok_demand (hR : Recognises R G) (hs : R.tokStep t cs b = some m')
    (h : Demand R G m' w) : Demand R G (.tok t cs) (b :: w) := by
  unfold tokStep at hs
  split at hs
  · rename_i t' hstay
    cases hs
    obtain ⟨u, post, r, rfl, ht, hpost, hr⟩ := h
    exact ⟨b :: u, post, r, rfl, by simpa [Tokens.Takes, hstay] using ht, hpost, hr⟩
  · rename_i hlast
    cases hs
    obtain ⟨post, r, rfl, hpost, hr⟩ := h
    exact ⟨[b], post, r, rfl, by simp [Tokens.Takes, hlast], hpost, hr⟩
  · rename_i hover
    obtain ⟨post, r, hw, hpost, hr⟩ := after_demand hR hs h
    refine ⟨[], post, r, hw, ?_, hpost, hr⟩
    rw [← hw]
    exact hover
  · cases hs

theorem key_demand (hR : Recognises R G) (hs : R.keyStep k cs b = some m')
    (h : Demand R G m' w) : Demand R G (.key k cs) (b :: w) := by
  unfold keyStep at hs
  split at hs
  · rename_i k' hstay
    cases hs
    obtain ⟨body, o, v, r, rfl, hk, hr⟩ := h
    exact ⟨b :: body, o, v, r, rfl, ⟨k', hstay, hk⟩, hr⟩
  · rename_i o v hdone
    cases hs
    obtain rfl := hR.quote k b o v hdone
    exact ⟨[], o, v, w, rfl, hdone, h⟩
  · cases hs

theorem member_demand (hR : Recognises R G) (hs : R.step (.member mayClose o cs) b = some m')
    (h : Demand R G m' w) : Demand R G (.member mayClose o cs) (b :: w) := by
  simp only [step] at hs
  split at hs
  · cases hs
    exact demand_ws trivial ‹_› h
  split at hs
  · rename_i hb
    cases hs
    subst hb
    obtain ⟨body, o', v, _, rfl, hk, mid, _, rfl, hmid, _, rfl, sep, _, rfl, hsep, d, post, r, rfl,
      hd, hpost, hr⟩ := h
    have hentry := (hR.entry o body o' v).mp hk
    rcases hr with ⟨r, rfl, hc, hr⟩ | ⟨rest, r, rfl, hc, hok, hr⟩
    · rw [← head_append] at hd
      refine ⟨.last [] body mid sep d post, r, ?_, ?_, hr⟩
      · simp [Members.bytes, entryBytes]
      · exact ⟨isWs_nil, hmid, hsep, hpost, o', v, hentry, hd, hc⟩
    · rw [← head_append] at hd
      refine ⟨.more [] body mid sep d post rest, r, ?_, ?_, hr⟩
      · simp [Members.bytes, entryBytes]
      · exact ⟨isWs_nil, hmid, hsep, hpost, o', v, hentry, hd, hc, hok⟩
  split at hs
  · rename_i hb
    split at hs
    · rename_i hc
      cases hs
      obtain ⟨rfl, rfl⟩ := hb
      exact ⟨.close [], w, rfl, ⟨isWs_nil, rfl, (hR.close o).mp hc⟩, h⟩
    · cases hs
  · cases hs

theorem item_demand (hR : Recognises R G) (hs : R.step (.item mayClose v cs) b = some m')
    (h : Demand R G m' w) : Demand R G (.item mayClose v cs) (b :: w) := by
  simp only [step] at hs
  split at hs
  · cases hs
    exact demand_ws trivial ‹_› h
  split at hs
  · rename_i hb
    cases hs
    obtain ⟨rfl, rfl⟩ := hb
    exact ⟨.close [], w, rfl, ⟨isWs_nil, rfl⟩, h⟩
  · obtain ⟨x, hstart, rfl⟩ := Option.map_eq_some_iff.mp hs
    obtain ⟨d, post, r, hw, hd, hpost, hr⟩ := start_demand hR hstart h
    rw [hw]
    rcases hr with ⟨r, rfl, hr⟩ | ⟨rest, r, rfl, hok, hr⟩
    · rw [← head_append] at hd
      exact ⟨.last [] d post, r, by simp [Items.bytes], ⟨isWs_nil, hd, hpost⟩, hr⟩
    · rw [← head_append] at hd
      exact ⟨.more [] d post rest, r, by simp [Items.bytes], ⟨isWs_nil, hd, hpost, hok⟩, hr⟩

theorem step_demand (hR : Recognises R G) (hs : R.step m b = some m') (h : Demand R G m' w) :
    Demand R G m (b :: w) := by
  cases m with
  | tok t cs => exact tok_demand hR hs h
  | key k cs => exact key_demand hR hs h
  | after cs => exact after_demand hR hs h
  | member mayClose o cs => exact member_demand hR hs h
  | item mayClose v cs => exact item_demand hR hs h
  | value v cs =>
    simp only [step] at hs
    split at hs
    · cases hs
      exact demand_ws trivial ‹_› h
    · obtain ⟨x, hstart, rfl⟩ := Option.map_eq_some_iff.mp hs
      exact padded_self (start_demand hR hstart h)
  | colon o v cs =>
    simp only [step] at hs
    split at hs
    · cases hs
      exact demand_ws trivial ‹_› h
    split at hs
    · rename_i hb
      cases hs
      subst hb
      exact padded_self ⟨w, rfl, h⟩
    · cases hs

theorem accepting_demand {m : Mode V O T K} (h : R.accepting m = true) : Demand R G m [] := by
  cases m with
  | after cs =>
    cases cs with
    | nil => exact ⟨[], [], rfl, isWs_nil, rfl⟩
    | cons c cs => cases h
  | tok t cs =>
    cases cs with
    | nil => exact ⟨[], [], [], rfl, h, isWs_nil, rfl⟩
    | cons c cs => cases h
  | _ => cases h

theorem acc_demand (hR : Recognises R G) (h : R.Acc m w) : Demand R G m w := by
  induction w generalizing m with
  | nil =>
    obtain ⟨m', hrun, hacc⟩ := h
    cases hrun
    exact accepting_demand hacc
  | cons b w ih =>
    obtain ⟨m', hs, hacc⟩ := ends_uncons h
    exact step_demand hR hs (ih hacc)

/-- A reader takes exactly the texts of the grammar it recognises. -/
theorem acc_iff_text (hR : Recognises R G) : R.Acc (.value v []) w ↔ Text G v w := by
  constructor
  · intro h
    obtain ⟨pre, _, rfl, hpre, d, post, r, rfl, hd, hpost, hr⟩ := acc_demand hR h
    cases hr
    exact ⟨⟨pre, d, post, hpre, by simpa using hd, hpost, by simp⟩⟩
  · rintro ⟨⟨pre, d, post, hpre, hd, hpost, rfl⟩⟩
    refine (ends_ws hpre (by trivial)).mpr (doc_ends hR accepting_closed .value ?_ ?_ hd)
    · have h : Follows (post ++ []).head? := tail_follows hpost (show Tail G [] [] from rfl)
      simpa using h
    · have hend : R.Acc (.after []) [] := ⟨_, rfl, rfl⟩
      simpa using (ends_ws hpost (by trivial)).mpr hend

end Reader
end Flambeau.Json
