import Flambeau.Server.PrefixCache
import Flambeau.Systems.Runs

namespace Flambeau.Server
open Systems

/-- What the server holds for the prefix cache. `from_prompt` asserts that its
chunks are not empty. -/
structure PrefixServer where
  enabled : Bool
  topologyTag : TopologyTag
  prefixCacheChunkTokens : Nat
  vramBudgetBytes : Nat
  chunkPos : 0 < prefixCacheChunkTokens

/-- One write-locked section of the cache. -/
inductive CacheWrite (K R : Type) where
  | insertSkeleton (chain : List K) (topology : TopologyTag) (chunkTokens nTokens : Nat)
  | insertWithKv (chain : List K) (info : PrefixCacheInsert) (kv : KvSnapshot)
      (lastLogits : Option (List R))
  | touch (terminal : K)

/-- What an entry is found by, and the tokens it says it covers. -/
structure EntryId (K : Type) where
  topology : TopologyTag
  chunkTokens : Nat
  chain : List K
  nTokens : Nat

def CacheWrite.entry : CacheWrite K R → Option (EntryId K)
  | .insertSkeleton chain topology chunkTokens nTokens =>
    some ⟨topology, chunkTokens, chain, nTokens⟩
  | .insertWithKv chain info _ _ => some ⟨info.topology, info.chunkTokens, chain, info.nTokens⟩
  | .touch _ => none

/-- The session under a slot, as the restore uses it. -/
structure ModelDriver (σ ε : Type) where
  /-- The error, if any, and the session the restore leaves. -/
  restoreSlot : σ → Nat → KvSnapshot → Option ε × σ
  resetForNextRequest : σ → Except ε σ

inductive PrefixCacheRestore (R : Type) where
  | miss
  | fullHit (logits : List R)
  | prefixHit (nMatched : Nat)

namespace PrefixServer

variable [DecidableEq K]

def write (server : PrefixServer) (c : PrefixCache K R) : CacheWrite K R → PrefixCache K R
  | .insertSkeleton chain topology chunkTokens nTokens =>
    c.insertSkeleton chain topology chunkTokens nTokens
  | .insertWithKv chain info kv lastLogits =>
    c.insertWithKv server.vramBudgetBytes chain info kv lastLogits
  | .touch terminal => c.touch server.enabled terminal

/-- The cache under all threads' writes. -/
def cache (server : PrefixServer) : System (PrefixCache K R) (CacheWrite K R) where
  init c := c = PrefixCache.new
  step c w := some (server.write c w)

def writes (server : PrefixServer) (c : PrefixCache K R) (ws : List (CacheWrite K R)) :
    PrefixCache K R :=
  ws.foldl server.write c

def keys (H : ChunkHash K) (server : PrefixServer) (prompt : List Nat) : PrefixKeys K :=
  .fromPrompt H prompt server.prefixCacheChunkTokens

/-- `prefix_cache_try_restore`: its three reads see the cache at `c`, then after
`ws₁`, then after `ws₂`; those are the other threads' writes. Returned are the
session and what is reported. -/
def tryRestore (H : ChunkHash K) (server : PrefixServer) (driver : Option (ModelDriver σ ε)) (inflight : σ)
    (prompt : List Nat) (c : PrefixCache K R) (ws₁ ws₂ : List (CacheWrite K R)) :
    Except ε (σ × PrefixCacheRestore R) :=
  if !server.enabled || prompt.isEmpty then .ok (inflight, .miss)
  else
    match c.longestMatch (server.keys H prompt) server.topologyTag with
    | none => .ok (inflight, .miss)
    | some m =>
      let c₁ := server.writes c ws₁
      let full := m.nTokens == prompt.length
      let logits := if full then c₁.logitsFor m.terminal else none
      if full && logits.isNone || prompt.length < m.nTokens then .ok (inflight, .miss)
      else
        match (server.writes c₁ ws₂).snapshotFor m.terminal with
        | none => .ok (inflight, .miss)
        | some kv =>
          match driver with
          | none => .ok (inflight, .miss)
          | some driver =>
            match driver.restoreSlot inflight m.nTokens kv with
            | (some _, broken) => (driver.resetForNextRequest broken).map (·, .miss)
            | (none, restored) =>
              match logits with
              | some l => .ok (restored, .fullHit l)
              | none => .ok (restored, .prefixHit m.nTokens)

/-- The entry the caller asked for: its topology, its chunk size, its chain, the
matched token count. -/
def asks (H : ChunkHash K) (server : PrefixServer) (prompt : List Nat) (m : MatchInfo K) : EntryId K where
  topology := server.topologyTag
  chunkTokens := server.prefixCacheChunkTokens
  chain := (server.keys H prompt).chunkKeys.take m.nChunks
  nTokens := m.nTokens

end PrefixServer

def CacheEntry.id (e : CacheEntry K R) : EntryId K := ⟨e.topology, e.chunkTokens, e.chain, e.nTokens⟩

namespace PrefixServer

variable [DecidableEq K]

/-- The driver restored the snapshot of an entry that stands under the match in
the cache `c₂`, the entry the caller asked for. -/
def Restored (H : ChunkHash K) (server : PrefixServer) (driver : Option (ModelDriver σ ε)) (inflight restored : σ)
    (prompt : List Nat) (c c₂ : PrefixCache K R) (m : MatchInfo K) (e : CacheEntry K R) : Prop :=
  c.longestMatch (server.keys H prompt) server.topologyTag = some m ∧
  e ∈ c₂.byTerminal m.terminal ∧ e.id = server.asks H prompt m ∧
  ∃ d kv, driver = some d ∧ e.kv = some kv ∧ d.restoreSlot inflight m.nTokens kv = (none, restored)

/-- What is restored and what is returned belong to one entry, the one that
matched. -/
def RestoresMatch (H : ChunkHash K) (server : PrefixServer) (driver : Option (ModelDriver σ ε)) (inflight : σ)
    (prompt : List Nat) (c : PrefixCache K R) (ws₁ ws₂ : List (CacheWrite K R)) : Prop :=
  ∀ restored report,
    server.tryRestore H driver inflight prompt c ws₁ ws₂ = .ok (restored, report) →
    let c₂ := server.writes (server.writes c ws₁) ws₂
    match report with
    | .miss => True
    | .fullHit logits =>
      ∃ m e, server.Restored H driver inflight restored prompt c c₂ m e ∧ e.lastLogits = some logits
    | .prefixHit nMatched =>
      ∃ m e, server.Restored H driver inflight restored prompt c c₂ m e ∧ nMatched = m.nTokens

/-- The write puts no second chain under a terminal key at which a snapshot
stands or comes to stand. -/
def OneChain (c : PrefixCache K R) : CacheWrite K R → Prop
  | .insertSkeleton chain topology chunkTokens _ =>
    ∀ k, chain.getLast? = some k → ∀ e ∈ c.byTerminal k, e.kv.isSome →
      e.sameChain topology chunkTokens chain
  | .insertWithKv chain info _ _ =>
    ∀ k, chain.getLast? = some k → ∀ e ∈ c.byTerminal k,
      e.sameChain info.topology info.chunkTokens chain
  | .touch _ => True

/-- An entry that comes back after its key was evicted comes back as it was asked
for. -/
def ComesBack (terminal : K) (id : EntryId K) (c : PrefixCache K R) (w : CacheWrite K R) : Prop :=
  ∀ id', w.entry = some id' → id'.chain.getLast? = some terminal → c.byTerminal terminal = [] →
    id' = id

/-- A new capture under the key has the logits that stood there in `c₁`. -/
def SameLogits (terminal : K) (c₁ : PrefixCache K R) : CacheWrite K R → Prop
  | .insertWithKv chain _ _ lastLogits => chain.getLast? = some terminal →
    ∀ e ∈ c₁.byTerminal terminal, e.lastLogits.isSome → lastLogits = e.lastLogits
  | _ => True

/-- The writes between the reads of a restore leave the matched key to its
entry. -/
structure Undisturbed (H : ChunkHash K) (server : PrefixServer) (prompt : List Nat) (c : PrefixCache K R)
    (ws₁ ws₂ : List (CacheWrite K R)) (m : MatchInfo K) : Prop where
  first : server.cache.Meets
    (fun s w => OneChain s w ∧ ComesBack m.terminal (server.asks H prompt m) s w) c ws₁
  second : server.cache.Meets
    (fun s w => OneChain s w ∧ ComesBack m.terminal (server.asks H prompt m) s w)
    (server.writes c ws₁) ws₂
  logits : m.nTokens = prompt.length →
    ∀ w ∈ ws₂, SameLogits m.terminal (server.writes c ws₁) w

/-- A snapshot stands at the front of its key's entries only, and all of them
have its chain. -/
structure AtFront (entries : List (CacheEntry K R)) : Prop where
  oneChain : ∀ e ∈ entries, e.kv.isSome → ∀ e' ∈ entries,
    e'.sameChain e.topology e.chunkTokens e.chain
  first : ∀ e ∈ entries.tail, e.kv = none
  logits : ∀ e ∈ entries, e.lastLogits.isSome → e.kv.isSome

theorem AtFront.nil : AtFront ([] : List (CacheEntry K R)) :=
  ⟨by simp, by simp, by simp⟩

theorem AtFront.push_skeleton {entries : List (CacheEntry K R)} (h : AtFront entries) (topology : TopologyTag)
    (chunkTokens nTokens : Nat) {chain : List K}
    (hsame : ∀ e ∈ entries, e.kv.isSome → e.sameChain topology chunkTokens chain) :
    AtFront (entries ++ [(⟨topology, chunkTokens, chain, nTokens, none, none⟩ : CacheEntry K R)]) := by
  refine ⟨?_, ?_, ?_⟩
  · intro e he hkv e' he'
    rcases List.mem_append.mp he with he | he
    · rcases List.mem_append.mp he' with he' | he'
      · exact h.oneChain e he hkv e' he'
      · obtain rfl := List.mem_singleton.mp he'
        obtain ⟨ht, hc, hch⟩ := CacheEntry.sameChain_iff.mp (hsame e he hkv)
        exact CacheEntry.sameChain_iff.mpr ⟨ht.symm, hc.symm, hch.symm⟩
    · obtain rfl := List.mem_singleton.mp he
      simp at hkv
  · intro e he
    cases entries with
    | nil => simp at he
    | cons hd tl =>
      rcases List.mem_append.mp he with he | he
      · exact h.first e he
      · obtain rfl := List.mem_singleton.mp he
        rfl
  · intro e he hl
    rcases List.mem_append.mp he with he | he
    · exact h.logits e he hl
    · obtain rfl := List.mem_singleton.mp he
      simp at hl

/-- A key whose entries all have the captured chain takes the snapshot at its
front. -/
theorem storeKv_front (kv : KvSnapshot) (lastLogits : Option (List R)) {info : PrefixCacheInsert}
    {chain : List K} {e : CacheEntry K R} (h : e.sameChain info.topology info.chunkTokens chain) :
    PrefixCache.storeKv chain info kv lastLogits (e :: es) =
      { e with kv := some kv, lastLogits := lastLogits } :: es := by
  rw [PrefixCache.storeKv, if_pos h]

/-- What stands in the list after a capture stood there before, or is the
captured entry. -/
theorem storeKv_mem {entries : List (CacheEntry K R)} {chain : List K}
    (h : e ∈ PrefixCache.storeKv chain info kv lastLogits entries) :
    e ∈ entries ∨ e.lastLogits = lastLogits := by
  induction entries with
  | nil =>
    obtain rfl := List.mem_singleton.mp h
    exact .inr rfl
  | cons hd tl ih =>
    rw [PrefixCache.storeKv] at h
    split at h
    · rcases List.mem_cons.mp h with rfl | h
      · exact .inr rfl
      · exact .inl (List.mem_cons_of_mem _ h)
    · rcases List.mem_cons.mp h with rfl | h
      · exact .inl List.mem_cons_self
      · exact (ih h).imp_left (List.mem_cons_of_mem _)

theorem AtFront.store {entries : List (CacheEntry K R)} (h : AtFront entries) (kv : KvSnapshot) (lastLogits : Option (List R))
    {info : PrefixCacheInsert} {chain : List K}
    (hsame : ∀ e ∈ entries, e.sameChain info.topology info.chunkTokens chain) :
    AtFront (PrefixCache.storeKv chain info kv lastLogits entries) := by
  cases entries with
  | nil =>
    refine ⟨?_, by simp [PrefixCache.storeKv], by simp [PrefixCache.storeKv]⟩
    simp [PrefixCache.storeKv, CacheEntry.sameChain]
  | cons hd tl =>
    rw [storeKv_front kv lastLogits (hsame hd List.mem_cons_self)]
    have hall : ∀ e ∈ ({ hd with kv := some kv, lastLogits := lastLogits } :: tl),
        e.topology = info.topology ∧ e.chunkTokens = info.chunkTokens ∧ e.chain = chain := by
      intro e he
      rcases List.mem_cons.mp he with rfl | he
      · exact CacheEntry.sameChain_iff.mp (hsame hd List.mem_cons_self)
      · exact CacheEntry.sameChain_iff.mp (hsame e (List.mem_cons_of_mem _ he))
    refine ⟨?_, h.first, ?_⟩
    · intro e he _ e' he'
      obtain ⟨ht, hc, hch⟩ := hall e he
      obtain ⟨ht', hc', hch'⟩ := hall e' he'
      exact CacheEntry.sameChain_iff.mpr ⟨ht'.trans ht.symm, hc'.trans hc.symm, hch'.trans hch.symm⟩
    · intro e he hl
      rcases List.mem_cons.mp he with rfl | he
      · rfl
      · exact h.logits e (List.mem_cons_of_mem _ he) hl

/-- One write leaves every key's snapshot at its front. -/
theorem atFront_write (server : PrefixServer) {c : PrefixCache K R}
    (h : ∀ k, AtFront (c.byTerminal k)) (hw : OneChain c w) (k : K) :
    AtFront ((server.write c w).byTerminal k) := by
  cases w with
  | insertSkeleton chain topology chunkTokens nTokens =>
    rw [write, PrefixCache.insertSkeleton_byTerminal]
    split
    · rename_i hlast
      exact (h k).push_skeleton topology chunkTokens nTokens (hw k hlast)
    · exact h k
  | insertWithKv chain info kv lastLogits =>
    rw [write]
    rcases @PrefixCache.insertWithKv_byTerminal _ _ _ chain server.vramBudgetBytes c info kv lastLogits k with
      hgone | hkept
    · rw [hgone]
      exact .nil
    · rw [hkept]
      split
      · rename_i hlast
        exact (h k).store kv lastLogits (hw k hlast)
      · exact h k
  | touch terminal =>
    rw [write, PrefixCache.touch_byTerminal]
    exact h k

theorem atFront_run (server : PrefixServer) {c : PrefixCache K R}
    (h : server.cache.Run OneChain c) (k : K) : AtFront (c.byTerminal k) := by
  revert k
  refine h.invariant (I := fun c => ∀ k, AtFront (c.byTerminal k)) ?_ ?_
  · intro c hc k
    obtain rfl : c = PrefixCache.new := hc
    exact .nil
  · intro c w c' hI hw hs
    cases hs
    exact atFront_write server hI hw

/-- Under the key there is nothing, or the first entry of the asked chain covers
the asked tokens. -/
def Follows (terminal : K) (id : EntryId K) (c : PrefixCache K R) : Prop :=
  c.byTerminal terminal = [] ∨
    ∃ e, (c.byTerminal terminal).find? (·.sameChain id.topology id.chunkTokens id.chain) = some e ∧
      e.nTokens = id.nTokens

theorem follows_of_eq {id : EntryId K} {c c' : PrefixCache K R} (h : Follows terminal id c)
    (heq : c'.byTerminal terminal = c.byTerminal terminal) : Follows terminal id c' := by
  unfold Follows
  rw [heq]
  exact h

theorem follows_write (server : PrefixServer) {id : EntryId K} {c : PrefixCache K R}
    (h : Follows terminal id c)
    (hw : OneChain c w) (hback : ComesBack terminal id c w) :
    Follows terminal id (server.write c w) := by
  cases w with
  | insertSkeleton chain topology chunkTokens nTokens =>
    have hentries := @PrefixCache.insertSkeleton_byTerminal _ _ _ chain c topology chunkTokens nTokens terminal
    by_cases hlast : chain.getLast? = some terminal
    · rw [if_pos hlast] at hentries
      refine .inr ?_
      rw [write, hentries]
      rcases h with hnil | ⟨e, he, hn⟩
      · obtain rfl := hback _ rfl hlast hnil
        rw [hnil]
        exact ⟨⟨topology, chunkTokens, chain, nTokens, none, none⟩, by simp [CacheEntry.sameChain], rfl⟩
      · rw [List.find?_append, he]
        exact ⟨e, rfl, hn⟩
    · rw [if_neg hlast] at hentries
      exact follows_of_eq h hentries
  | insertWithKv chain info kv lastLogits =>
    rcases @PrefixCache.insertWithKv_byTerminal _ _ _ chain server.vramBudgetBytes c info kv lastLogits terminal
      with hgone | hkept
    · exact .inl hgone
    by_cases hlast : chain.getLast? = some terminal
    · rw [if_pos hlast] at hkept
      refine .inr ?_
      rw [write, hkept]
      cases hentries : c.byTerminal terminal with
      | nil =>
        obtain rfl := hback _ rfl hlast hentries
        exact ⟨⟨info.topology, info.chunkTokens, chain, info.nTokens, some kv, lastLogits⟩,
          by simp [PrefixCache.storeKv, CacheEntry.sameChain], rfl⟩
      | cons hd tl =>
        have hhd : hd ∈ c.byTerminal terminal := by rw [hentries]; exact List.mem_cons_self
        rw [storeKv_front kv lastLogits (hw terminal hlast hd hhd)]
        rcases h with hnil | ⟨e, he, hn⟩
        · rw [hentries] at hnil
          cases hnil
        · rw [hentries] at he
          by_cases hsame : hd.sameChain id.topology id.chunkTokens id.chain = true
          · rw [List.find?_cons_of_pos hsame] at he
            cases he
            exact ⟨{ hd with kv := some kv, lastLogits := lastLogits },
              List.find?_cons_of_pos (l := tl) hsame, hn⟩
          · rw [List.find?_cons_of_neg hsame] at he
            refine ⟨e, ?_, hn⟩
            rw [List.find?_cons_of_neg (by exact hsame)]
            exact he
    · rw [if_neg hlast] at hkept
      exact follows_of_eq h hkept
  | touch k =>
    exact follows_of_eq h (by rw [write, PrefixCache.touch_byTerminal])

/-- Every snapshot under the key comes with these logits. -/
def KvLogits (terminal : K) (logits : List R) (c : PrefixCache K R) : Prop :=
  ∀ e ∈ c.byTerminal terminal, e.kv.isSome → e.lastLogits = some logits

theorem kvLogits_write (server : PrefixServer) {c : PrefixCache K R}
    (h : KvLogits terminal logits c)
    (hw : ∀ chain info kv lastLogits, w = .insertWithKv chain info kv lastLogits →
      chain.getLast? = some terminal → lastLogits = some logits) :
    KvLogits terminal logits (server.write c w) := by
  intro e he hkv
  cases w with
  | insertSkeleton chain topology chunkTokens nTokens =>
    rw [write, PrefixCache.insertSkeleton_byTerminal] at he
    split at he
    · rcases List.mem_append.mp he with he | he
      · exact h e he hkv
      · obtain rfl := List.mem_singleton.mp he
        simp at hkv
    · exact h e he hkv
  | insertWithKv chain info kv lastLogits =>
    rw [write] at he
    rcases @PrefixCache.insertWithKv_byTerminal _ _ _ chain server.vramBudgetBytes c info kv lastLogits terminal
      with hgone | hkept
    · rw [hgone] at he
      cases he
    · rw [hkept] at he
      split at he
      · rename_i hlast
        obtain rfl := hw _ _ _ _ rfl hlast
        rcases storeKv_mem he with hold | hnew
        · exact h e hold hkv
        · exact hnew
      · exact h e he hkv
  | touch k =>
    rw [write, PrefixCache.touch_byTerminal] at he
    exact h e he hkv

theorem runFrom_writes (server : PrefixServer) (c : PrefixCache K R) (ws : List (CacheWrite K R)) :
    server.cache.runFrom c ws = some (server.writes c ws) := by
  induction ws generalizing c with
  | nil => rfl
  | cons w ws ih => exact ih (server.write c w)

/-- What the writes between two reads of a restore keep. -/
theorem stands_writes (server : PrefixServer) {id : EntryId K} {c : PrefixCache K R}
    (h : (∀ k, AtFront (c.byTerminal k)) ∧ Follows terminal id c)
    (hp : server.cache.Meets (fun s w => OneChain s w ∧ ComesBack terminal id s w) c ws) :
    (∀ k, AtFront ((server.writes c ws).byTerminal k)) ∧ Follows terminal id (server.writes c ws) := by
  refine System.runFrom_keeps (M := server.cache)
    (I := fun c => (∀ k, AtFront (c.byTerminal k)) ∧ Follows terminal id c) ?_ h hp
    (runFrom_writes server c ws)
  intro s w s' hI hP hs
  cases hs
  exact ⟨atFront_write server hI.1 hP.1, follows_write server hI.2 hP.1 hP.2⟩

theorem kvLogits_writes (server : PrefixServer) {c c₁ : PrefixCache K R}
    (h : KvLogits terminal logits c)
    (hsame : ∀ w ∈ ws, SameLogits terminal c₁ w)
    (hl : ∃ e ∈ c₁.byTerminal terminal, e.lastLogits = some logits) :
    KvLogits terminal logits (server.writes c ws) := by
  obtain ⟨e, he, hlogits⟩ := hl
  induction ws generalizing c with
  | nil => exact h
  | cons w ws ih =>
    refine ih (kvLogits_write server h ?_) (fun w hw => hsame w (List.mem_cons_of_mem _ hw))
    intro chain info kv lastLogits hw hlast
    subst hw
    have hthis := hsame _ List.mem_cons_self hlast e he (by simp [hlogits])
    rw [hthis, hlogits]

theorem snapshotFor_front {c : PrefixCache K R} (h : AtFront (c.byTerminal terminal))
    (hs : c.snapshotFor terminal = some kv) :
    ∃ hd tl, c.byTerminal terminal = hd :: tl ∧ hd.kv = some kv := by
  unfold PrefixCache.snapshotFor at hs
  obtain ⟨e, he, hkv⟩ := List.exists_of_findSome?_eq_some hs
  cases hentries : c.byTerminal terminal with
  | nil =>
    rw [hentries] at he
    cases he
  | cons hd tl =>
    rw [hentries] at he h
    rcases List.mem_cons.mp he with rfl | he
    · exact ⟨e, tl, rfl, hkv⟩
    · have hnone := h.first e he
      rw [hkv] at hnone
      cases hnone

/-- The logits that a key gives out come with each of its snapshots. -/
theorem logitsFor_kvLogits {c : PrefixCache K R} (h : AtFront (c.byTerminal terminal))
    (hl : c.logitsFor terminal = some logits) :
    KvLogits terminal logits c ∧ ∃ e ∈ c.byTerminal terminal, e.lastLogits = some logits := by
  unfold PrefixCache.logitsFor at hl
  obtain ⟨e, he, hlogits⟩ := List.exists_of_findSome?_eq_some hl
  refine ⟨?_, e, he, hlogits⟩
  intro e' he' hkv
  have hkv₁ := h.logits e he (by simp [hlogits])
  cases hentries : c.byTerminal terminal with
  | nil =>
    rw [hentries] at he
    cases he
  | cons hd tl =>
    rw [hentries] at he he' h
    have hfront : ∀ e ∈ hd :: tl, e.kv.isSome → e = hd := by
      intro e he hkv
      rcases List.mem_cons.mp he with rfl | he
      · rfl
      · rw [h.first e he] at hkv
        cases hkv
    rw [hfront e' he' hkv, ← hfront e he hkv₁]
    exact hlogits

/-- The snapshot a key gives out is of the entry that was asked for. -/
theorem snapshotFor_asked {id : EntryId K} {c : PrefixCache K R}
    (h : AtFront (c.byTerminal terminal)) (hfollows : Follows terminal id c)
    (hs : c.snapshotFor terminal = some kv) :
    ∃ e ∈ c.byTerminal terminal, e.id = id ∧ e.kv = some kv := by
  obtain ⟨hd, tl, hentries, hkv⟩ := snapshotFor_front h hs
  rcases hfollows with hnil | ⟨e, he, hn⟩
  · rw [hentries] at hnil
    cases hnil
  · have hmem := List.mem_of_find?_eq_some he
    have hask := CacheEntry.sameChain_iff.mp (List.find?_some he)
    rw [hentries] at hmem he h
    have hsame := CacheEntry.sameChain_iff.mp
      (h.oneChain hd List.mem_cons_self (by simp [hkv]) e hmem)
    have hhd : hd.sameChain id.topology id.chunkTokens id.chain = true :=
      CacheEntry.sameChain_iff.mpr ⟨hsame.1.symm.trans hask.1, hsame.2.1.symm.trans hask.2.1,
        hsame.2.2.symm.trans hask.2.2⟩
    rw [List.find?_cons_of_pos hhd] at he
    cases he
    refine ⟨hd, by rw [hentries]; exact List.mem_cons_self, ?_, hkv⟩
    obtain ⟨ht, hc, hch⟩ := hask
    simp [CacheEntry.id, ht, hc, hch, hn]

/-- In a run of the writers that keeps one chain under each terminal key, a
restore that the writers leave undisturbed restores the entry that matched and
returns its logits. -/
theorem restored_entry_is_the_match (H : ChunkHash K) (server : PrefixServer) (driver : Option (ModelDriver σ ε))
    (inflight : σ) (prompt : List Nat) {c : PrefixCache K R} {ws₁ ws₂ : List (CacheWrite K R)}
    (hrun : server.cache.Run OneChain c)
    (hbetween : ∀ m, c.longestMatch (server.keys H prompt) server.topologyTag = some m →
      server.Undisturbed H prompt c ws₁ ws₂ m) :
    server.RestoresMatch H driver inflight prompt c ws₁ ws₂ := by
  intro restored report h
  dsimp only
  unfold tryRestore at h
  split at h
  · cases h
    trivial
  split at h
  · cases h
    trivial
  rename_i m hm
  dsimp only at h
  generalize hlogits : (if (m.nTokens == prompt.length) = true then
    (server.writes c ws₁).logitsFor m.terminal else none) = logits at h
  split at h
  · cases h
    trivial
  split at h
  · cases h
    trivial
  rename_i kv hkv
  split at h
  · cases h
    trivial
  rename_i d
  split at h
  · rename_i broken _
    cases hreset : d.resetForNextRequest broken with
    | error e =>
      rw [hreset] at h
      cases h
    | ok fresh =>
      rw [hreset] at h
      cases h
      trivial
  rename_i fresh hrestore
  have hquiet := hbetween m hm
  have hstart : Follows m.terminal (server.asks H prompt m) c := by
    obtain ⟨e, he, hn⟩ := (PrefixCache.longestMatch_some hm).entry
    exact .inr ⟨e, he, hn.symm⟩
  have h₁ := stands_writes server ⟨atFront_run server hrun, hstart⟩ hquiet.first
  have h₂ := stands_writes server h₁ hquiet.second
  obtain ⟨e, he, hid, hekv⟩ := snapshotFor_asked (h₂.1 m.terminal) h₂.2 hkv
  have hrestored : server.Restored H (some d) inflight fresh prompt c
      (server.writes (server.writes c ws₁) ws₂) m e :=
    ⟨hm, he, hid, d, kv, rfl, hekv, hrestore⟩
  split at h
  · rename_i l _
    cases h
    have hfull : m.nTokens = prompt.length ∧ (server.writes c ws₁).logitsFor m.terminal = some l := by
      split at hlogits
      · rename_i hlen
        exact ⟨by simpa using hlen, hlogits⟩
      · cases hlogits
    obtain ⟨hkvl, hthere⟩ := logitsFor_kvLogits (h₁.1 m.terminal) hfull.2
    have hend := kvLogits_writes server hkvl (hquiet.logits hfull.1) hthere
    exact ⟨m, e, hrestored, hend e he (by simp [hekv])⟩
  · cases h
    exact ⟨m, e, hrestored, rfl⟩

/-- A hash that keeps every chunk it has seen. -/
def chunkList : ChunkHash (List (List Nat)) := ⟨[], fun k ts => k ++ [ts]⟩

/-- A session that is the snapshot it was given. -/
def copyDriver : ModelDriver KvSnapshot Unit := ⟨fun _ _ kv => (none, kv), .ok⟩

/-- A server on two ranks, chunks of two tokens. -/
def twoRanks (meshKind : String) : PrefixServer := ⟨true, ⟨meshKind, 2, 1, 2⟩, 2, 100, Nat.two_pos⟩

def captureTwo (meshKind : String) (byte : UInt8) : CacheWrite (List (List Nat)) Nat :=
  .insertWithKv [[[5, 6]]] ⟨⟨meshKind, 2, 1, 2⟩, 2, 2, 1⟩ [[byte]] (some [7])

theorem restored_entry_is_the_match_two_tokens :
    let c := (twoRanks "tp").writes PrefixCache.new [captureTwo "tp" 1]
    (twoRanks "tp").RestoresMatch chunkList (some copyDriver) [] [5, 6] c [.touch [[5, 6]]] [] ∧
    (twoRanks "tp").tryRestore chunkList (some copyDriver) [] [5, 6] c [.touch [[5, 6]]] [] =
      .ok ([[1]], .fullHit [7]) := by
  refine ⟨restored_entry_is_the_match _ _ _ _ _ ?_ ?_, rfl⟩
  · refine .step (.init rfl) (a := captureTwo "tp" 1) ?_ rfl
    intro k _ e he
    cases he
  · intro m _
    refine ⟨⟨⟨trivial, ?_⟩, fun _ _ => trivial⟩, trivial, fun _ w hw => by cases hw⟩
    intro id hid
    cases hid

/-- Two captures share a terminal key: the second topology's caller is given the
first one's snapshot. -/
theorem other_topology_restored :
    let c := (twoRanks "pp").writes PrefixCache.new [captureTwo "tp" 1, captureTwo "pp" 2]
    (twoRanks "pp").cache.Reachable c ∧
    ¬ (twoRanks "pp").RestoresMatch chunkList (some copyDriver) [] [5, 6] c [] [] := by
  refine ⟨.step (.step (.init rfl) trivial rfl) (a := captureTwo "pp" 2) trivial rfl, ?_⟩
  intro h
  obtain ⟨m, e, ⟨hm, he, hid, d, kv, hd, hkv, hrestore⟩, -⟩ := h [[1]] (.fullHit [7]) rfl
  cases hm
  cases hd
  have hbyte : kv = [[1]] := congrArg Prod.snd hrestore
  subst hbyte
  have hentries : e ∈ [(⟨⟨"tp", 2, 1, 2⟩, 2, [[[5, 6]]], 2, some [[1]], some [7]⟩ :
      CacheEntry (List (List Nat)) Nat), ⟨⟨"pp", 2, 1, 2⟩, 2, [[[5, 6]]], 2, some [[2]], some [7]⟩] :=
    he
  simp only [List.mem_cons, List.not_mem_nil, or_false] at hentries
  rcases hentries with rfl | rfl
  · have hkind := congrArg (fun id => id.topology.meshKind) hid
    exact absurd hkind (by decide)
  · exact absurd hkv (by decide)

end PrefixServer
end Flambeau.Server
