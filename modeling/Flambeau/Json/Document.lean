import Flambeau.Json.Tokens

namespace Flambeau.Json

mutual

/-- A concrete syntax tree: every byte of a JSON value, whitespace included. -/
inductive Doc where
  | lit (tok : Bytes)
  | num (tok : Bytes)
  | str (body : Bytes)
  | arr (items : Items)
  | obj (members : Members)

/-- What follows `[` or a comma of an array, the closing bracket included. -/
inductive Items where
  | close (pad : Bytes)
  | last (pre : Bytes) (d : Doc) (post : Bytes)
  | more (pre : Bytes) (d : Doc) (post : Bytes) (rest : Items)

/-- What follows `{` or a comma of an object, the closing brace included. -/
inductive Members where
  | close (pad : Bytes)
  | last (pre key mid sep : Bytes) (d : Doc) (post : Bytes)
  | more (pre key mid sep : Bytes) (d : Doc) (post : Bytes) (rest : Members)

end

/-- A key between its quotes, the colon and the value's bytes, with the
whitespace around them. -/
def entryBytes (pre key mid sep value : Bytes) : Bytes :=
  pre ++ 0x22 :: (key ++ 0x22 :: (mid ++ 0x3A :: (sep ++ value)))

mutual

def Doc.bytes : Doc → Bytes
  | .lit tok => tok
  | .num tok => tok
  | .str body => 0x22 :: (body ++ [0x22])
  | .arr items => 0x5B :: items.bytes
  | .obj members => 0x7B :: members.bytes

def Items.bytes : Items → Bytes
  | .close pad => pad ++ [0x5D]
  | .last pre d post => pre ++ (d.bytes ++ (post ++ [0x5D]))
  | .more pre d post rest => pre ++ (d.bytes ++ (post ++ 0x2C :: rest.bytes))

def Members.bytes : Members → Bytes
  | .close pad => pad ++ [0x7D]
  | .last pre key mid sep d post => entryBytes pre key mid sep (d.bytes ++ (post ++ [0x7D]))
  | .more pre key mid sep d post rest =>
      entryBytes pre key mid sep (d.bytes ++ (post ++ 0x2C :: rest.bytes))

end

/-- Which trees a reader takes. `V` says what value is due, `O` what an open
object has read so far; a leaf is judged with the byte after it. -/
structure Grammar (V O : Type) where
  leaf : V → Doc → Option UInt8 → Prop
  arr : V → V → Prop
  obj : V → O → Prop
  /-- The key takes the object from one state to the next and says what value
  is due. -/
  entry : O → Bytes → O → V → Prop
  close : O → Prop
  comma : O → Prop
  /-- A close may follow a comma. -/
  trailing : Bool

mutual

/-- The tree is a value due at `v`, with `next` the byte after it. -/
def Doc.Ok (G : Grammar V O) (v : V) : Doc → Option UInt8 → Prop
  | .arr items, next => G.leaf v (.arr items) next ∨ ∃ v', G.arr v v' ∧ items.Ok G v' true
  | .obj members, next => G.leaf v (.obj members) next ∨ ∃ o, G.obj v o ∧ members.Ok G o true
  | .lit tok, next => G.leaf v (.lit tok) next
  | .num tok, next => G.leaf v (.num tok) next
  | .str body, next => G.leaf v (.str body) next

def Items.Ok (G : Grammar V O) (v : V) : Items → Bool → Prop
  | .close pad, mayClose => IsWs pad ∧ mayClose = true
  | .last pre d post, _ => IsWs pre ∧ d.Ok G v (post ++ [0x5D]).head? ∧ IsWs post
  | .more pre d post rest, _ =>
      IsWs pre ∧ d.Ok G v (post ++ [0x2C]).head? ∧ IsWs post ∧ rest.Ok G v G.trailing

def Members.Ok (G : Grammar V O) (o : O) : Members → Bool → Prop
  | .close pad, mayClose => IsWs pad ∧ mayClose = true ∧ G.close o
  | .last pre key mid sep d post, _ =>
      IsWs pre ∧ IsWs mid ∧ IsWs sep ∧ IsWs post ∧
        ∃ o' v, G.entry o key o' v ∧ d.Ok G v (post ++ [0x7D]).head? ∧ G.close o'
  | .more pre key mid sep d post rest, _ =>
      IsWs pre ∧ IsWs mid ∧ IsWs sep ∧ IsWs post ∧
        ∃ o' v, G.entry o key o' v ∧ d.Ok G v (post ++ [0x2C]).head? ∧ G.comma o' ∧
          rest.Ok G o' G.trailing

end

/-- A leaf is a value wherever it is one of the grammar's leaves. -/
theorem ok_of_leaf {G : Grammar V O} {d : Doc} (h : G.leaf v d next) : d.Ok G v next := by
  cases d with
  | arr items => exact .inl h
  | obj members => exact .inl h
  | _ => exact h

/-- The bytes that may follow a value: whitespace, a delimiter, or none. -/
def Follows (next : Option UInt8) : Prop :=
  ∀ b, next = some b → isWs b = true ∨ b = 0x2C ∨ b = 0x7D ∨ b = 0x5D

theorem head_append (post : Bytes) (b : UInt8) (r : Bytes) :
    (post ++ [b]).head? = (post ++ b :: r).head? := by
  cases post <;> rfl

theorem follows_ws (hp : IsWs post) (hb : b = 0x2C ∨ b = 0x7D ∨ b = 0x5D) :
    Follows (post ++ b :: r).head? := by
  intro c hc
  cases post with
  | nil =>
    cases hc
    exact .inr hb
  | cons p post =>
    cases hc
    exact .inl (isWs_cons.mp hp).1

/-- Trees of `G` are trees of `H`, with `P` and `Q` relating what is due. -/
structure Sim (G : Grammar V O) (H : Grammar V' O') (P : V → V' → Prop) (Q : O → O' → Prop) :
    Prop where
  leaf : P v v' → G.leaf v d next → d.Ok H v' next
  arr : P v v' → G.arr v u → ∃ u', H.arr v' u' ∧ P u u'
  obj : P v v' → G.obj v o → ∃ o', H.obj v' o' ∧ Q o o'
  entry : Q o o' → G.entry o key p v → ∃ p' v', H.entry o' key p' v' ∧ Q p p' ∧ P v v'
  close : Q o o' → G.close o → H.close o'
  comma : Q o o' → G.comma o → H.comma o'
  trailing : G.trailing = true → H.trailing = true

mutual

theorem doc_sim (h : Sim G H P Q) : ∀ {d : Doc} {v v' next}, P v v' → d.Ok G v next → d.Ok H v' next
  | .lit _, _, _, _, hp, hd => h.leaf hp hd
  | .num _, _, _, _, hp, hd => h.leaf hp hd
  | .str _, _, _, _, hp, hd => h.leaf hp hd
  | .arr items, _, _, _, hp, hd => by
    rcases hd with hd | ⟨u, harr, hi⟩
    · exact h.leaf hp hd
    · obtain ⟨u', harr', hu⟩ := h.arr hp harr
      exact .inr ⟨u', harr', items_sim h hu id hi⟩
  | .obj members, _, _, _, hp, hd => by
    rcases hd with hd | ⟨o, hobj, hm⟩
    · exact h.leaf hp hd
    · obtain ⟨o', hobj', ho⟩ := h.obj hp hobj
      exact .inr ⟨o', hobj', members_sim h ho id hm⟩

theorem items_sim (h : Sim G H P Q) :
    ∀ {items : Items} {v v' c c'}, P v v' → (c = true → c' = true) → items.Ok G v c →
      items.Ok H v' c'
  | .close _, _, _, _, _, _, hc, hi => ⟨hi.1, hc hi.2⟩
  | .last _ d _, _, _, _, _, hp, _, hi => ⟨hi.1, doc_sim h hp hi.2.1, hi.2.2⟩
  | .more _ d _ rest, _, _, _, _, hp, _, hi =>
    ⟨hi.1, doc_sim h hp hi.2.1, hi.2.2.1, items_sim h hp h.trailing hi.2.2.2⟩

theorem members_sim (h : Sim G H P Q) :
    ∀ {members : Members} {o o' c c'}, Q o o' → (c = true → c' = true) → members.Ok G o c →
      members.Ok H o' c'
  | .close _, _, _, _, _, hq, hc, hm => ⟨hm.1, hc hm.2.1, h.close hq hm.2.2⟩
  | .last pre key mid sep d post, _, _, _, _, hq, _, hm => by
    obtain ⟨hpre, hmid, hsep, hpost, p, v, he, hd, hc⟩ := hm
    obtain ⟨p', v', he', hq', hp⟩ := h.entry hq he
    exact ⟨hpre, hmid, hsep, hpost, p', v', he', doc_sim h hp hd, h.close hq' hc⟩
  | .more pre key mid sep d post rest, _, _, _, _, hq, _, hm => by
    obtain ⟨hpre, hmid, hsep, hpost, p, v, he, hd, hc, hrest⟩ := hm
    obtain ⟨p', v', he', hq', hp⟩ := h.entry hq he
    exact ⟨hpre, hmid, hsep, hpost, p', v', he', doc_sim h hp hd, h.comma hq' hc,
      members_sim h hq' h.trailing hrest⟩

end

/-- A value read out of `w`, with the whitespace on either side of it. -/
structure Reading (G : Grammar V O) (v : V) (w : Bytes) where
  pre : Bytes
  doc : Doc
  post : Bytes
  pre_ws : IsWs pre
  ok : doc.Ok G v post.head?
  post_ws : IsWs post
  bytes : w = pre ++ (doc.bytes ++ post)

def Text (G : Grammar V O) (v : V) (w : Bytes) : Prop := Nonempty (Reading G v w)

/-- The tokens of RFC 8259. -/
def RfcLeaf : Doc → Prop
  | .lit tok => IsLiteral tok
  | .num tok => ∃ n : Num, n.Rfc ∧ n.bytes = tok
  | .str body => Chars body
  | _ => False

/-- RFC 8259. -/
def rfc8259 : Grammar Unit Unit where
  leaf _ d _ := RfcLeaf d
  arr _ _ := True
  obj _ _ := True
  entry _ key _ _ := Chars key
  close _ := True
  comma _ := True
  trailing := false

/-- The JSON texts of RFC 8259, at byte level. -/
def IsText (w : Bytes) : Prop := Text rfc8259 () w

end Flambeau.Json
