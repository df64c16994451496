import Mathlib

namespace Flambeau.Server

/-- `ChunkKey`: the seed and `extend`, the hash of one chunk's tokens against the
key before it. -/
structure ChunkHash (K : Type) where
  seed : K
  extend : K → List Nat → K

namespace ChunkHash

/-- The hash loses nothing of the key before it nor of the chunk. -/
def Injective (H : ChunkHash K) : Prop :=
  ∀ k k' ts ts', H.extend k ts = H.extend k' ts' → k = k' ∧ ts = ts'

/-- Each chunk's key, chained against the key before it. -/
def chain (H : ChunkHash K) (prev : K) : List (List Nat) → List K
  | [] => []
  | chunk :: chunks => H.extend prev chunk :: H.chain (H.extend prev chunk) chunks

end ChunkHash

/-- A prompt in strides of `chunkTokens`, the partial tail last. -/
def promptChunks (prompt : List Nat) (chunkTokens : Nat) : List (List Nat) :=
  let nFull := prompt.length / chunkTokens
  let full := (List.range nFull).map fun i => (prompt.drop (i * chunkTokens)).take chunkTokens
  if prompt.length % chunkTokens ≠ 0 then full ++ [prompt.drop (nFull * chunkTokens)] else full

structure PrefixKeys (K : Type) where
  chunkKeys : List K
  chunkTokens : Nat
  promptTokens : Nat

/-- `PrefixKeys::from_prompt`. -/
def PrefixKeys.fromPrompt (H : ChunkHash K) (prompt : List Nat) (chunkTokens : Nat) :
    PrefixKeys K where
  chunkKeys := H.chain H.seed (promptChunks prompt chunkTokens)
  chunkTokens := chunkTokens
  promptTokens := prompt.length

structure TopologyTag where
  meshKind : String
  ranks : Nat
  ppSize : Nat
  tpSize : Nat
deriving DecidableEq

/-- One rank's bytes for each rank. -/
abbrev KvSnapshot := List (List UInt8)

/-- `snapshot_bytes_arc`. -/
def snapshotBytes (snap : KvSnapshot) : Nat := (snap.map List.length).sum

structure CacheEntry (K R : Type) where
  topology : TopologyTag
  chunkTokens : Nat
  chain : List K
  nTokens : Nat
  kv : Option KvSnapshot
  lastLogits : Option (List R)

structure PrefixCacheInsert where
  topology : TopologyTag
  chunkTokens : Nat
  nTokens : Nat
  bytes : Nat

structure MatchInfo (K : Type) where
  nChunks : Nat
  nTokens : Nat
  terminal : K

/-- `PrefixCacheInner`: a terminal key's entries in the order they were pushed. -/
structure PrefixCache (K R : Type) where
  byTerminal : K → List (CacheEntry K R)
  /-- Front is the most recently touched. -/
  lruOrder : List K
  usedBytes : Nat

namespace CacheEntry

variable [DecidableEq K]

/-- The comparison of `longest_match` and of `insert_with_kv`. -/
def sameChain (topology : TopologyTag) (chunkTokens : Nat) (chain : List K)
    (e : CacheEntry K R) : Bool :=
  e.topology == topology && e.chunkTokens == chunkTokens && e.chain == chain

theorem sameChain_iff {e : CacheEntry K R} {topology : TopologyTag} {chunkTokens : Nat}
    {chain : List K} : e.sameChain topology chunkTokens chain = true ↔
      e.topology = topology ∧ e.chunkTokens = chunkTokens ∧ e.chain = chain := by
  simp [sameChain, and_assoc]

/-- The host bytes an entry is accounted for. -/
def accounted (e : CacheEntry K R) : Nat × Nat :=
  ((e.kv.map snapshotBytes).getD 0, (e.lastLogits.map fun l => l.length * 4).getD 0)

end CacheEntry

namespace PrefixCache

variable [DecidableEq K]

def new : PrefixCache K R := ⟨fun _ => [], [], 0⟩

def setTerminal (c : PrefixCache K R) (terminal : K) (entries : List (CacheEntry K R)) :
    PrefixCache K R :=
  { c with byTerminal := fun k => if k = terminal then entries else c.byTerminal k }

theorem setTerminal_same (c : PrefixCache K R) (terminal : K) (entries) :
    (c.setTerminal terminal entries).byTerminal terminal = entries := by
  simp [setTerminal]

theorem setTerminal_other (c : PrefixCache K R) (entries) (h : k ≠ terminal) :
    (c.setTerminal terminal entries).byTerminal k = c.byTerminal k := by
  simp [setTerminal, h]

/-- The walk of `longest_match` from the first `n` chunk keys down to one. -/
def longestFrom (c : PrefixCache K R) (keys : PrefixKeys K) (topology : TopologyTag) :
    Nat → Option (MatchInfo K)
  | 0 => none
  | n + 1 =>
    match keys.chunkKeys[n]? with
    | none => longestFrom c keys topology n
    | some terminal =>
      match (c.byTerminal terminal).find?
          (·.sameChain topology keys.chunkTokens (keys.chunkKeys.take (n + 1))) with
      | some e => some ⟨n + 1, e.nTokens, terminal⟩
      | none => longestFrom c keys topology n

/-- `longest_match`. -/
def longestMatch (c : PrefixCache K R) (keys : PrefixKeys K) (topology : TopologyTag) :
    Option (MatchInfo K) :=
  c.longestFrom keys topology keys.chunkKeys.length

/-- `insert_skeleton`. -/
def insertSkeleton (c : PrefixCache K R) (chain : List K) (topology : TopologyTag)
    (chunkTokens nTokens : Nat) : PrefixCache K R :=
  match chain.getLast? with
  | none => c
  | some terminal =>
    c.setTerminal terminal
      (c.byTerminal terminal ++ [⟨topology, chunkTokens, chain, nTokens, none, none⟩])

/-- `snapshot_for`. -/
def snapshotFor (c : PrefixCache K R) (terminal : K) : Option KvSnapshot :=
  (c.byTerminal terminal).findSome? (·.kv)

/-- `logits_for`. -/
def logitsFor (c : PrefixCache K R) (terminal : K) : Option (List R) :=
  (c.byTerminal terminal).findSome? (·.lastLogits)

def touchLru (c : PrefixCache K R) (terminal : K) : PrefixCache K R :=
  { c with lruOrder := terminal :: c.lruOrder.filter (· ≠ terminal) }

/-- `touch`. -/
def touch (enabled : Bool) (c : PrefixCache K R) (terminal : K) : PrefixCache K R :=
  if enabled then c.touchLru terminal else c

/-- The entry list once the snapshot is stored: the first entry of the same
chain takes it and keeps its token count, else a new entry is pushed. -/
def storeKv (chain : List K) (info : PrefixCacheInsert) (kv : KvSnapshot)
    (lastLogits : Option (List R)) : List (CacheEntry K R) → List (CacheEntry K R)
  | [] => [⟨info.topology, info.chunkTokens, chain, info.nTokens, some kv, lastLogits⟩]
  | e :: es =>
    if e.sameChain info.topology info.chunkTokens chain then
      { e with kv := some kv, lastLogits := lastLogits } :: es
    else e :: storeKv chain info kv lastLogits es

/-- The bytes the replaced entry was accounted for. -/
def replacedBytes (chain : List K) (info : PrefixCacheInsert)
    (entries : List (CacheEntry K R)) : Nat :=
  match entries.find? (·.sameChain info.topology info.chunkTokens chain) with
  | some e => e.accounted.1 + e.accounted.2
  | none => 0

/-- The victim's entries leave, each with its snapshot's and its logits' bytes. -/
def dropTerminal (c : PrefixCache K R) (victim : K) : PrefixCache K R :=
  { c.setTerminal victim [] with
    usedBytes := (c.byTerminal victim).foldl (fun used e => used - e.accounted.1 - e.accounted.2)
      c.usedBytes }

/-- The eviction loop, over the LRU order from its back. -/
def evictFrom (budget : Nat) (c : PrefixCache K R) : List K → PrefixCache K R
  | [] => { c with lruOrder := [] }
  | victim :: rest =>
    if budget < c.usedBytes then evictFrom budget (c.dropTerminal victim) rest
    else { c with lruOrder := (victim :: rest).reverse }

/-- `insert_with_kv`. -/
def insertWithKv (budget : Nat) (c : PrefixCache K R) (chain : List K) (info : PrefixCacheInsert)
    (kv : KvSnapshot) (lastLogits : Option (List R)) : PrefixCache K R :=
  match chain.getLast? with
  | none => c
  | some terminal =>
    let entries := c.byTerminal terminal
    let stored := c.setTerminal terminal (storeKv chain info kv lastLogits entries)
    let charged :=
      { stored with usedBytes := stored.usedBytes - replacedBytes chain info entries + info.bytes }
    let front := charged.touchLru terminal
    front.evictFrom budget front.lruOrder.reverse

/-- Eviction takes whole entry lists away. -/
theorem evictFrom_byTerminal (budget : Nat) (c : PrefixCache K R) (order : List K) (k : K) :
    (c.evictFrom budget order).byTerminal k = c.byTerminal k ∨
      (c.evictFrom budget order).byTerminal k = [] := by
  induction order generalizing c with
  | nil => exact .inl rfl
  | cons victim rest ih =>
    rw [evictFrom]
    split
    · rcases ih (c.dropTerminal victim) with hkeep | hgone
      · rw [hkeep]
        by_cases hk : k = victim
        · subst hk
          exact .inr (setTerminal_same c k [])
        · exact .inl (setTerminal_other c [] hk)
      · exact .inr hgone
    · exact .inl rfl

theorem insertSkeleton_byTerminal (c : PrefixCache K R) (topology : TopologyTag)
    (chunkTokens nTokens : Nat) (k : K) :
    (c.insertSkeleton chain topology chunkTokens nTokens).byTerminal k =
      if chain.getLast? = some k then
        c.byTerminal k ++ [⟨topology, chunkTokens, chain, nTokens, none, none⟩]
      else c.byTerminal k := by
  unfold insertSkeleton
  cases hlast : chain.getLast? with
  | none => simp
  | some terminal =>
    by_cases hk : k = terminal
    · subst hk
      simp [setTerminal_same]
    · have hne : terminal ≠ k := fun h => hk h.symm
      simp [setTerminal_other _ _ hk, hne]

/-- A terminal's entries after `insert_with_kv`: gone, or as before with the
snapshot stored where the chain ends in this key. -/
theorem insertWithKv_byTerminal (budget : Nat) (c : PrefixCache K R) (info : PrefixCacheInsert)
    (kv : KvSnapshot) (lastLogits : Option (List R)) (k : K) :
    (c.insertWithKv budget chain info kv lastLogits).byTerminal k = [] ∨
      (c.insertWithKv budget chain info kv lastLogits).byTerminal k =
        if chain.getLast? = some k then storeKv chain info kv lastLogits (c.byTerminal k)
        else c.byTerminal k := by
  unfold insertWithKv
  cases hlast : chain.getLast? with
  | none => exact .inr (by simp)
  | some terminal =>
    dsimp only
    refine (evictFrom_byTerminal budget _ _ k).symm.imp_right ?_
    intro hkeep
    rw [hkeep]
    simp only [touchLru]
    by_cases hk : k = terminal
    · subst hk
      simp [setTerminal_same]
    · have hne : terminal ≠ k := fun h => hk h.symm
      simp [setTerminal_other _ _ hk, hne]

theorem touch_byTerminal (enabled : Bool) (c : PrefixCache K R) (terminal : K) :
    (c.touch enabled terminal).byTerminal = c.byTerminal := by
  unfold touch
  split <;> rfl

/-- The entry of a chain that `longest_match` would find under a key. -/
def find (c : PrefixCache K R) (keys : PrefixKeys K) (topology : TopologyTag) (k : K) (n : Nat) :
    Option (CacheEntry K R) :=
  (c.byTerminal k).find? (·.sameChain topology keys.chunkTokens (keys.chunkKeys.take n))

/-- What a match among the first `n` keys says: the entry found is the first one
of the caller's chain under the key the chain ends in, and no longer chain has
an entry. -/
structure Matched (c : PrefixCache K R) (keys : PrefixKeys K) (topology : TopologyTag) (n : Nat)
    (m : MatchInfo K) : Prop where
  le : m.nChunks ≤ n
  key : ∃ i, m.nChunks = i + 1 ∧ keys.chunkKeys[i]? = some m.terminal
  entry : ∃ e, c.find keys topology m.terminal m.nChunks = some e ∧ m.nTokens = e.nTokens
  longest : ∀ (i : Nat) (k : K), m.nChunks ≤ i → i < n → keys.chunkKeys[i]? = some k →
    c.find keys topology k (i + 1) = none

theorem Matched.succ {c : PrefixCache K R} (h : c.Matched keys topology n m)
    (hnone : ∀ k, keys.chunkKeys[n]? = some k → c.find keys topology k (n + 1) = none) :
    c.Matched keys topology (n + 1) m := by
  refine ⟨Nat.le_succ_of_le h.le, h.key, h.entry, ?_⟩
  intro i k hi hlt hk
  rcases Nat.lt_succ_iff_lt_or_eq.mp hlt with hin | rfl
  · exact h.longest i k hi hin hk
  · exact hnone k hk

theorem longestFrom_some {keys : PrefixKeys K} {c : PrefixCache K R} {m : MatchInfo K}
    (h : c.longestFrom keys topology n = some m) : c.Matched keys topology n m := by
  induction n with
  | zero => cases h
  | succ n ih =>
    rw [longestFrom] at h
    split at h
    · rename_i hnone
      refine (ih h).succ ?_
      intro k hk
      rw [hnone] at hk
      cases hk
    · rename_i terminal hterm
      split at h
      · rename_i e he
        cases h
        refine ⟨Nat.le_refl _, ⟨n, rfl, hterm⟩, ⟨e, he, rfl⟩, ?_⟩
        intro i k hi hlt
        exact absurd hlt (Nat.not_lt.mpr hi)
      · rename_i hmiss
        refine (ih h).succ ?_
        intro k hk
        rw [hterm] at hk
        cases hk
        exact hmiss

theorem longestMatch_some {keys : PrefixKeys K} {c : PrefixCache K R} {m : MatchInfo K}
    (h : c.longestMatch keys topology = some m) :
    c.Matched keys topology keys.chunkKeys.length m :=
  longestFrom_some h

end PrefixCache
end Flambeau.Server
