import Flambeau.Server.PrefixRestore

namespace Flambeau.Server

namespace ChunkHash

theorem chain_length (H : ChunkHash K) (prev : K) (chunks : List (List Nat)) :
    (H.chain prev chunks).length = chunks.length := by
  induction chunks generalizing prev with
  | nil => rfl
  | cons chunk chunks ih => simp [chain, ih]

theorem chain_take (H : ChunkHash K) (prev : K) (chunks : List (List Nat)) (n : Nat) :
    (H.chain prev chunks).take n = H.chain prev (chunks.take n) := by
  induction chunks generalizing prev n with
  | nil => simp [chain]
  | cons chunk chunks ih =>
    cases n with
    | zero => rfl
    | succ n => simp [chain, ih]

/-- A chain of keys commits to the chunks. -/
theorem Injective.chain {H : ChunkHash K} (h : H.Injective) (prev : K)
    {chunks chunks' : List (List Nat)} (heq : H.chain prev chunks = H.chain prev chunks') :
    chunks = chunks' := by
  induction chunks generalizing prev chunks' with
  | nil =>
    cases chunks' with
    | nil => rfl
    | cons chunk' chunks' => cases heq
  | cons chunk chunks ih =>
    cases chunks' with
    | nil => cases heq
    | cons chunk' chunks' =>
      simp only [ChunkHash.chain, List.cons.injEq] at heq
      obtain ⟨hhead, htail⟩ := heq
      obtain ⟨-, rfl⟩ := h _ _ _ _ hhead
      rw [ih _ htail]

end ChunkHash

/-- The full chunks of a prompt. -/
def fullChunks (prompt : List Nat) (chunkTokens n : Nat) : List (List Nat) :=
  (List.range n).map fun i => (prompt.drop (i * chunkTokens)).take chunkTokens

theorem fullChunks_flatten (prompt : List Nat) (chunkTokens n : Nat) :
    (fullChunks prompt chunkTokens n).flatten = prompt.take (n * chunkTokens) := by
  induction n with
  | zero => simp [fullChunks]
  | succ n ih =>
    rw [fullChunks, List.range_succ, List.map_append, List.flatten_append, ← fullChunks, ih,
      Nat.succ_mul, List.take_add]
    simp

theorem fullChunks_take (prompt : List Nat) (chunkTokens : Nat) (h : n ≤ m) :
    (fullChunks prompt chunkTokens m).take n = fullChunks prompt chunkTokens n := by
  rw [fullChunks, ← List.map_take, List.take_range, Nat.min_eq_left h, fullChunks]

theorem fullChunks_prefix (prompt : List Nat) (chunkTokens n : Nat) :
    fullChunks (prompt.take (n * chunkTokens)) chunkTokens n = fullChunks prompt chunkTokens n := by
  apply List.map_congr_left
  intro i hi
  have hin := List.mem_range.mp hi
  have hroom : chunkTokens ≤ n * chunkTokens - i * chunkTokens := by
    rw [← Nat.sub_mul]
    exact Nat.le_mul_of_pos_left _ (by omega)
  rw [List.drop_take, List.take_take, Nat.min_eq_left hroom]

theorem promptChunks_eq (prompt : List Nat) (chunkTokens : Nat) :
    promptChunks prompt chunkTokens =
      if prompt.length % chunkTokens ≠ 0 then
        fullChunks prompt chunkTokens (prompt.length / chunkTokens) ++
          [prompt.drop (prompt.length / chunkTokens * chunkTokens)]
      else fullChunks prompt chunkTokens (prompt.length / chunkTokens) := rfl

theorem promptChunks_flatten (prompt : List Nat) (chunkTokens : Nat) :
    (promptChunks prompt chunkTokens).flatten = prompt := by
  rw [promptChunks_eq]
  split
  · rw [List.flatten_append, fullChunks_flatten]
    simp
  · rename_i hwhole
    have hlen : prompt.length / chunkTokens * chunkTokens = prompt.length :=
      Nat.div_mul_cancel (Nat.dvd_of_mod_eq_zero (Decidable.not_not.mp hwhole))
    rw [fullChunks_flatten, hlen, List.take_length]

theorem promptChunks_take_full (prompt : List Nat) (chunkTokens : Nat)
    (hn : n ≤ prompt.length / chunkTokens) :
    (promptChunks prompt chunkTokens).take n = fullChunks prompt chunkTokens n := by
  have hlen : n ≤ (fullChunks prompt chunkTokens (prompt.length / chunkTokens)).length := by
    simpa [fullChunks] using hn
  rw [promptChunks_eq]
  split
  · rw [List.take_append_of_le_length hlen, fullChunks_take _ _ hn]
  · rw [fullChunks_take _ _ hn]

theorem promptChunks_take_all (prompt : List Nat) (chunkTokens : Nat)
    (hn : ¬ n ≤ prompt.length / chunkTokens) :
    (promptChunks prompt chunkTokens).take n = promptChunks prompt chunkTokens := by
  refine List.take_of_length_le ?_
  rw [promptChunks_eq]
  split <;> simp [fullChunks] <;> omega

/-- A prompt whose chunks are the first ones of another is a prefix of it, which
ends with a chunk or is all of it. -/
theorem prefix_of_promptChunks {prompt covered : List Nat}
    (h : promptChunks covered chunkTokens = (promptChunks prompt chunkTokens).take n) :
    covered <+: prompt ∧ (chunkTokens ∣ covered.length ∨ covered = prompt) := by
  have hflat := congrArg List.flatten h
  rw [promptChunks_flatten] at hflat
  by_cases hn : n ≤ prompt.length / chunkTokens
  · rw [promptChunks_take_full _ _ hn, fullChunks_flatten] at hflat
    refine ⟨hflat ▸ List.take_prefix _ _, .inl ?_⟩
    have hle : n * chunkTokens ≤ prompt.length :=
      Nat.le_trans (Nat.mul_le_mul_right _ hn) (Nat.div_mul_le_self _ _)
    rw [hflat, List.length_take_of_le hle]
    exact Nat.dvd_mul_left _ _
  · rw [promptChunks_take_all _ _ hn, promptChunks_flatten] at hflat
    subst hflat
    exact ⟨List.prefix_refl _, .inr rfl⟩

/-- A prefix that ends with a chunk, or is the whole prompt, has the first chunks
of the prompt. -/
theorem promptChunks_of_prefix {prompt covered : List Nat} (hpos : 0 < chunkTokens)
    (hleading : covered <+: prompt) (hend : chunkTokens ∣ covered.length ∨ covered = prompt) :
    promptChunks covered chunkTokens =
      (promptChunks prompt chunkTokens).take (promptChunks covered chunkTokens).length := by
  rcases hend with ⟨n, hn⟩ | rfl
  · have hdiv : covered.length / chunkTokens = n := by
      rw [hn, Nat.mul_div_cancel_left n hpos]
    have hcovered : promptChunks covered chunkTokens = fullChunks covered chunkTokens n := by
      rw [promptChunks_eq, if_neg, hdiv]
      simp [hn]
    have hle : n ≤ prompt.length / chunkTokens := by
      rw [Nat.le_div_iff_mul_le hpos, Nat.mul_comm, ← hn]
      exact hleading.length_le
    have htake : covered = prompt.take (n * chunkTokens) := by
      rw [Nat.mul_comm, ← hn]
      exact List.prefix_iff_eq_take.mp hleading
    have hsame : fullChunks covered chunkTokens n = fullChunks prompt chunkTokens n := by
      rw [htake, fullChunks_prefix]
    have hlength : (fullChunks covered chunkTokens n).length = n := by simp [fullChunks]
    rw [hcovered, hlength, hsame, promptChunks_take_full _ _ hle]
  · exact List.take_length.symm

/-- A capture: `prefix_cache_insert_intermediate` or
`prefix_cache_try_capture_full`. The session's `snapshot_slot` gives no bytes
where there is no driver or the snapshot fails. -/
inductive CaptureCall (R : Type) where
  | intermediate (prompt : List Nat) (nTokensCompleted : Nat) (snapshotSlot : Nat → Option KvSnapshot)
  | full (prompt : List Nat) (lastLogits : List R) (snapshotSlot : Nat → Option KvSnapshot)

/-- The tokens whose state a capture snapshots. -/
def CaptureCall.covered : CaptureCall R → List Nat
  | .intermediate prompt nTokensCompleted _ => prompt.take nTokensCompleted
  | .full prompt _ _ => prompt

namespace PrefixServer

variable [DecidableEq K]

/-- `prefix_cache_insert_intermediate`. -/
def prefixCacheInsertIntermediate (H : ChunkHash K) (server : PrefixServer) (c : PrefixCache K R)
    (prompt : List Nat) (nTokensCompleted : Nat) (snapshotSlot : Nat → Option KvSnapshot) :
    PrefixCache K R :=
  let chunk := server.prefixCacheChunkTokens
  if !server.enabled || nTokensCompleted == 0 || nTokensCompleted % chunk != 0 ||
      decide (prompt.length ≤ nTokensCompleted) then c
  else
    match snapshotSlot nTokensCompleted with
    | none => c
    | some snaps =>
      c.insertWithKv server.vramBudgetBytes (server.keys H (prompt.take nTokensCompleted)).chunkKeys
        ⟨server.topologyTag, chunk, nTokensCompleted, snapshotBytes snaps⟩ snaps none

/-- `MIN_CAPTURE_TOKENS`. -/
def minCaptureTokens : Nat := 50

/-- `prefix_cache_try_capture_full`. -/
def prefixCacheTryCaptureFull (H : ChunkHash K) (server : PrefixServer) (c : PrefixCache K R)
    (prompt : List Nat) (lastLogits : List R) (snapshotSlot : Nat → Option KvSnapshot) :
    PrefixCache K R :=
  if !server.enabled || decide (prompt.length < minCaptureTokens) then c
  else
    match snapshotSlot prompt.length with
    | none => c
    | some snaps =>
      c.insertWithKv server.vramBudgetBytes (server.keys H prompt).chunkKeys
        ⟨server.topologyTag, server.prefixCacheChunkTokens, prompt.length, snapshotBytes snaps⟩ snaps
        (some lastLogits)

def capture (H : ChunkHash K) (server : PrefixServer) (c : PrefixCache K R) :
    CaptureCall R → PrefixCache K R
  | .intermediate prompt nTokensCompleted snapshotSlot =>
    server.prefixCacheInsertIntermediate H c prompt nTokensCompleted snapshotSlot
  | .full prompt lastLogits snapshotSlot =>
    server.prefixCacheTryCaptureFull H c prompt lastLogits snapshotSlot

/-- The cache after captures of servers of any topology and chunk size. -/
def captures (H : ChunkHash K) (calls : List (PrefixServer × CaptureCall R)) : PrefixCache K R :=
  calls.foldl (fun c call => call.1.capture H c call.2) PrefixCache.new

/-- A capture does nothing, or inserts what it covers under its own keys. -/
theorem capture_spec (H : ChunkHash K) (server : PrefixServer) (c : PrefixCache K R)
    (call : CaptureCall R) :
    server.capture H c call = c ∨
      ∃ bytes kv lastLogits, server.capture H c call =
        c.insertWithKv server.vramBudgetBytes (server.keys H call.covered).chunkKeys
          ⟨server.topologyTag, server.prefixCacheChunkTokens, call.covered.length, bytes⟩ kv
          lastLogits := by
  cases call with
  | intermediate prompt n snapshotSlot =>
    rw [capture, prefixCacheInsertIntermediate]
    split
    · exact .inl rfl
    · rename_i hguard
      split
      · exact .inl rfl
      · rename_i snaps _
        refine .inr ⟨snapshotBytes snaps, snaps, none, ?_⟩
        have hlt : n < prompt.length := by
          simp only [Bool.or_eq_true, decide_eq_true_eq, not_or] at hguard
          omega
        rw [CaptureCall.covered, List.length_take_of_le (Nat.le_of_lt hlt)]
  | full prompt lastLogits snapshotSlot =>
    rw [capture, prefixCacheTryCaptureFull]
    split
    · exact .inl rfl
    · split
      · exact .inl rfl
      · rename_i snaps _
        exact .inr ⟨snapshotBytes snaps, snaps, some lastLogits, rfl⟩

/-- The entry stands under its own key and one of the captures made it. -/
def Captured (H : ChunkHash K) (calls : List (PrefixServer × CaptureCall R)) (k : K)
    (e : CacheEntry K R) : Prop :=
  e.chain.getLast? = some k ∧ ∃ call ∈ calls,
    e.id = ⟨call.1.topologyTag, call.1.prefixCacheChunkTokens,
      (call.1.keys H call.2.covered).chunkKeys, call.2.covered.length⟩

/-- A capture into a key's entries adds its own entry or leaves their ids. -/
theorem storeKv_id {entries : List (CacheEntry K R)}
    (h : e ∈ PrefixCache.storeKv chain info kv lastLogits entries) :
    (∃ old ∈ entries, e.id = old.id) ∨
      e.id = ⟨info.topology, info.chunkTokens, chain, info.nTokens⟩ := by
  induction entries with
  | nil =>
    obtain rfl := List.mem_singleton.mp h
    exact .inr rfl
  | cons hd tl ih =>
    rw [PrefixCache.storeKv] at h
    split at h
    · rcases List.mem_cons.mp h with rfl | h
      · exact .inl ⟨hd, List.mem_cons_self, rfl⟩
      · exact .inl ⟨e, List.mem_cons_of_mem _ h, rfl⟩
    · rcases List.mem_cons.mp h with rfl | h
      · exact .inl ⟨e, List.mem_cons_self, rfl⟩
      · exact (ih h).imp_left (Exists.imp fun old hold => hold.imp_left (List.mem_cons_of_mem _))

omit [DecidableEq K] in
theorem captured_of_id {H : ChunkHash K} {calls : List (PrefixServer × CaptureCall R)}
    {e e' : CacheEntry K R} (h : Captured H calls k e) (hid : e'.id = e.id) :
    Captured H calls k e' := by
  obtain ⟨hlast, call, hcall, heid⟩ := h
  have hchain : e'.chain = e.chain := congrArg EntryId.chain hid
  exact ⟨hchain ▸ hlast, call, hcall, hid.trans heid⟩

theorem captured_capture (H : ChunkHash K) {c : PrefixCache K R}
    {calls : List (PrefixServer × CaptureCall R)} {call : PrefixServer × CaptureCall R}
    (h : ∀ k, ∀ e ∈ c.byTerminal k, Captured H calls k e) (hcall : call ∈ calls) (k : K) :
    ∀ e ∈ (call.1.capture H c call.2).byTerminal k, Captured H calls k e := by
  intro e he
  rcases capture_spec H call.1 c call.2 with hsame | ⟨bytes, kv, lastLogits, hinsert⟩
  · rw [hsame] at he
    exact h k e he
  rw [hinsert] at he
  rcases @PrefixCache.insertWithKv_byTerminal _ _ _ ((call.1.keys H call.2.covered).chunkKeys)
    call.1.vramBudgetBytes c _ kv lastLogits k with hgone | hkept
  · rw [hgone] at he
    cases he
  rw [hkept] at he
  split at he
  · rename_i hlast
    rcases storeKv_id he with ⟨old, hold, hid⟩ | hid
    · exact captured_of_id (h k old hold) hid
    · have hchain : e.chain = (call.1.keys H call.2.covered).chunkKeys := congrArg EntryId.chain hid
      exact ⟨hchain ▸ hlast, call, hcall, hid⟩
  · exact h k e he

theorem captured_captures (H : ChunkHash K) (calls : List (PrefixServer × CaptureCall R)) (k : K) :
    ∀ e ∈ (captures H calls).byTerminal k, Captured H calls k e := by
  have hfold : ∀ (rest : List (PrefixServer × CaptureCall R)) (c : PrefixCache K R),
      (∀ call ∈ rest, call ∈ calls) → (∀ k, ∀ e ∈ c.byTerminal k, Captured H calls k e) →
      ∀ k, ∀ e ∈ (rest.foldl (fun c call => call.1.capture H c call.2) c).byTerminal k,
        Captured H calls k e := by
    intro rest
    induction rest with
    | nil => exact fun _ _ h => h
    | cons call rest ih =>
      intro c hsub h
      exact ih _ (fun call hmem => hsub call (List.mem_cons_of_mem _ hmem))
        (captured_capture H h (hsub call List.mem_cons_self))
  exact hfold calls PrefixCache.new (fun _ h => h) (fun k e he => by cases he) k

omit [DecidableEq K] in
/-- The last of the first `n` keys. -/
theorem taken_key {keys chain : List K} (htake : chain = keys.take n)
    (hlast : chain.getLast? = some k) (hlen : chain.length = n) :
    n - 1 < keys.length ∧ keys[n - 1]? = some k := by
  have hle : n ≤ keys.length := by
    rw [htake, List.length_take] at hlen
    omega
  have hpos : n ≠ 0 := by
    rintro rfl
    rw [List.eq_nil_of_length_eq_zero hlen] at hlast
    cases hlast
  have hlt : n - 1 < keys.length := by omega
  rw [htake, List.getLast?_take, if_neg hpos, List.getElem?_eq_getElem hlt] at hlast
  rw [List.getElem?_eq_getElem hlt]
  exact ⟨hlt, hlast⟩

/-- With a hash that loses nothing, a hit is the state of a captured prefix of the
prompt, and no resident entry whose tokens end with a chunk or are the whole
prompt covers a longer one. -/
theorem hits_are_captured_prefixes {H : ChunkHash K} (hinj : H.Injective)
    (calls : List (PrefixServer × CaptureCall R)) (server : PrefixServer) (prompt : List Nat)
    {m : MatchInfo K}
    (h : (captures H calls).longestMatch (server.keys H prompt) server.topologyTag = some m) :
    (∃ call ∈ calls, call.1.topologyTag = server.topologyTag ∧
      call.1.prefixCacheChunkTokens = server.prefixCacheChunkTokens ∧
      m.nTokens = call.2.covered.length ∧ call.2.covered <+: prompt ∧
      (server.prefixCacheChunkTokens ∣ call.2.covered.length ∨ call.2.covered = prompt)) ∧
    ∀ k, ∀ e ∈ (captures H calls).byTerminal k, ∀ covered,
      e.id = ⟨server.topologyTag, server.prefixCacheChunkTokens, (server.keys H covered).chunkKeys,
        covered.length⟩ →
      covered <+: prompt →
      (server.prefixCacheChunkTokens ∣ covered.length ∨ covered = prompt) →
      covered.length ≤ m.nTokens := by
  have hmatched := PrefixCache.longestMatch_some h
  have htake : ∀ n, (server.keys H prompt).chunkKeys.take n =
      H.chain H.seed ((promptChunks prompt server.prefixCacheChunkTokens).take n) :=
    fun n => H.chain_take _ _ _
  obtain ⟨e, he, hn⟩ := hmatched.entry
  obtain ⟨-, call, hcall, hid⟩ := captured_captures H calls m.terminal e (List.mem_of_find?_eq_some he)
  obtain ⟨htopology, hchunk, hchain⟩ := CacheEntry.sameChain_iff.mp (List.find?_some he)
  have hsize : call.1.prefixCacheChunkTokens = server.prefixCacheChunkTokens :=
    (congrArg EntryId.chunkTokens hid).symm.trans hchunk
  have hcovers : m.nTokens = call.2.covered.length := hn.trans (congrArg EntryId.nTokens hid)
  have hchunks : promptChunks call.2.covered server.prefixCacheChunkTokens =
      (promptChunks prompt server.prefixCacheChunkTokens).take m.nChunks := by
    have hkeys := (congrArg EntryId.chain hid).symm.trans hchain
    dsimp only at hkeys
    rw [htake, keys, hsize] at hkeys
    exact hinj.chain _ hkeys
  refine ⟨⟨call, hcall, (congrArg EntryId.topology hid).symm.trans htopology, hsize, hcovers,
    prefix_of_promptChunks hchunks⟩, ?_⟩
  intro k e' he' covered hid' hleading hend
  have hfirst := promptChunks_of_prefix server.chunkPos hleading hend
  obtain ⟨hlast, -⟩ := captured_captures H calls k e' he'
  have hchain' : e'.chain = (server.keys H prompt).chunkKeys.take
      (promptChunks covered server.prefixCacheChunkTokens).length := by
    rw [htake, ← hfirst]
    exact congrArg EntryId.chain hid'
  have hle : (promptChunks covered server.prefixCacheChunkTokens).length ≤ m.nChunks := by
    apply Nat.le_of_not_lt
    intro hlt
    have hkey := taken_key hchain' hlast
      ((congrArg List.length (congrArg EntryId.chain hid')).trans (H.chain_length _ _))
    have hnone := hmatched.longest _ k (Nat.le_sub_one_of_lt hlt) hkey.1 hkey.2
    rw [Nat.sub_add_cancel (Nat.zero_lt_of_lt hlt)] at hnone
    refine absurd (CacheEntry.sameChain_iff.mpr ⟨?_, ?_, hchain'⟩) (List.find?_eq_none.mp hnone e' he')
    · exact congrArg EntryId.topology hid'
    · exact congrArg EntryId.chunkTokens hid'
  have hflat : covered <+: call.2.covered := by
    rw [← promptChunks_flatten covered server.prefixCacheChunkTokens,
      ← promptChunks_flatten call.2.covered server.prefixCacheChunkTokens, hchunks, hfirst]
    obtain ⟨rest, hrest⟩ := List.take_prefix_take_left
      (l := promptChunks prompt server.prefixCacheChunkTokens) hle
    rw [← hrest, List.flatten_append]
    exact List.prefix_append _ _
  rw [hcovers]
  exact hflat.length_le

/-- A server with chunks of fifty tokens. -/
def fiftyTokens : PrefixServer := ⟨true, ⟨"tp", 2, 1, 2⟩, 50, 100, by decide⟩

/-- The captures of a prompt of sixty tokens: its first chunk, then all of it. -/
def sixtyCaptured : List (PrefixServer × CaptureCall Nat) :=
  [(fiftyTokens, .intermediate (List.range 60) 50 fun _ => some [[1]]),
   (fiftyTokens, .full (List.range 60) [7] fun _ => some [[2]])]

theorem chunkList_injective : chunkList.Injective := by
  intro k k' ts ts' h
  obtain ⟨hk, hts⟩ := List.append_inj' h rfl
  exact ⟨hk, (List.cons.inj hts).1⟩

theorem hits_are_captured_prefixes_fifty_tokens :
    ∃ call ∈ sixtyCaptured, call.2.covered.length = 50 ∧ call.2.covered <+: List.range 70 := by
  obtain ⟨⟨call, hcall, -, -, hn, hleading, -⟩, -⟩ := hits_are_captured_prefixes
    chunkList_injective sixtyCaptured fiftyTokens (List.range 70)
    (m := ⟨1, 50, [List.range 50]⟩) rfl
  exact ⟨call, hcall, hn.symm, hleading⟩

/-- The capture of all sixty tokens is resident and a prefix of the prompt of
seventy, whose hit covers fifty. -/
theorem partial_tail_not_hit :
    chunkList.Injective ∧
    (captures chunkList sixtyCaptured).longestMatch (fiftyTokens.keys chunkList (List.range 70))
      fiftyTokens.topologyTag = some ⟨1, 50, [List.range 50]⟩ ∧
    List.range 60 <+: List.range 70 ∧
    ∃ k, ∃ e ∈ (captures chunkList sixtyCaptured).byTerminal k,
      e.id = ⟨fiftyTokens.topologyTag, fiftyTokens.prefixCacheChunkTokens,
        (fiftyTokens.keys chunkList (List.range 60)).chunkKeys, 60⟩ ∧ 50 < e.nTokens := by
  refine ⟨chunkList_injective, rfl, by decide, [List.range 50, [50, 51, 52, 53, 54, 55, 56, 57, 58, 59]], ?_⟩
  exact ⟨⟨⟨"tp", 2, 1, 2⟩, 50, [[List.range 50],
    [List.range 50, [50, 51, 52, 53, 54, 55, 56, 57, 58, 59]]], 60, some [[2]], some [7]⟩,
    List.mem_cons_self, rfl, by decide⟩

end PrefixServer
end Flambeau.Server
