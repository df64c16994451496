import Flambeau.Server.CacheAccounting

namespace Flambeau.Server

namespace CacheWrite

variable [DecidableEq K]

/-- What a write makes of a key's entries, eviction aside. -/
def store (k : K) : CacheWrite K R → List (CacheEntry K R) → List (CacheEntry K R)
  | .insertSkeleton chain topology chunkTokens nTokens, entries =>
    if chain.getLast? = some k then entries ++ [⟨topology, chunkTokens, chain, nTokens, none, none⟩]
    else entries
  | .insertWithKv chain info kv lastLogits, entries =>
    if chain.getLast? = some k then PrefixCache.storeKv chain info kv lastLogits entries else entries
  | .touch _, entries => entries

/-- A capture without logits under the key leaves another entry's logits there. -/
def KeepsLogits (k : K) (entries : List (CacheEntry K R)) : CacheWrite K R → Prop
  | .insertWithKv chain info _ none => chain.getLast? = some k →
    ∃ e ∈ entries.eraseP (·.sameChain info.topology info.chunkTokens chain), e.lastLogits.isSome
  | _ => True

end CacheWrite

namespace PrefixCache

variable [DecidableEq K]

/-- The logits under a key once a snapshot is stored there. -/
theorem storeKv_logits {chain : List K} {info : PrefixCacheInsert} {kv : KvSnapshot}
    {lastLogits : Option (List R)} {entries : List (CacheEntry K R)} :
    (∃ e ∈ storeKv chain info kv lastLogits entries, e.lastLogits.isSome) ↔
      lastLogits.isSome ∨
        ∃ e ∈ entries.eraseP (·.sameChain info.topology info.chunkTokens chain), e.lastLogits.isSome := by
  induction entries with
  | nil => simp [storeKv]
  | cons hd tl ih =>
    unfold storeKv
    cases hsame : hd.sameChain info.topology info.chunkTokens chain with
    | true => simp [hsame]
    | false =>
      rw [if_neg Bool.false_ne_true, List.eraseP_cons_of_neg (by simp [hsame])]
      simp only [List.exists_mem_cons_iff, ih]
      exact or_left_comm

theorem storeKv_kv (chain : List K) (info : PrefixCacheInsert) (kv : KvSnapshot)
    (lastLogits : Option (List R)) (entries : List (CacheEntry K R)) :
    ∃ e ∈ storeKv chain info kv lastLogits entries, e.kv.isSome := by
  induction entries with
  | nil => exact ⟨_, List.mem_cons_self, rfl⟩
  | cons hd tl ih =>
    unfold storeKv
    split
    · exact ⟨_, List.mem_cons_self, rfl⟩
    · obtain ⟨e, he, hkv⟩ := ih
      exact ⟨e, List.mem_cons_of_mem _ he, hkv⟩

/-- The first entry of a chain keeps its token count when a snapshot is stored. -/
theorem storeKv_found {chain asked : List K} {info : PrefixCacheInsert} {kv : KvSnapshot}
    {lastLogits : Option (List R)} {entries : List (CacheEntry K R)} {topology : TopologyTag}
    {chunkTokens : Nat} {found : CacheEntry K R}
    (h : entries.find? (·.sameChain topology chunkTokens asked) = some found) :
    ∃ e, (storeKv chain info kv lastLogits entries).find? (·.sameChain topology chunkTokens asked) = some e ∧
      e.nTokens = found.nTokens := by
  induction entries with
  | nil => cases h
  | cons hd tl ih =>
    unfold storeKv
    by_cases hask : hd.sameChain topology chunkTokens asked = true
    · rw [List.find?_cons_of_pos hask] at h
      obtain rfl := Option.some.inj h
      split
      · exact ⟨{ hd with kv := some kv, lastLogits := lastLogits },
          List.find?_cons_of_pos (by exact hask), rfl⟩
      · exact ⟨hd, List.find?_cons_of_pos hask, rfl⟩
    · rw [List.find?_cons_of_neg hask] at h
      split
      · exact ⟨found, (List.find?_cons_of_neg (by exact hask)).trans h, rfl⟩
      · rw [List.find?_cons_of_neg hask]
        exact ih h

/-- The entry a capture is found by afterwards. -/
theorem storeKv_own (chain : List K) (info : PrefixCacheInsert) (kv : KvSnapshot)
    (lastLogits : Option (List R)) (entries : List (CacheEntry K R)) :
    ∃ e, (storeKv chain info kv lastLogits entries).find?
        (·.sameChain info.topology info.chunkTokens chain) = some e ∧
      e.nTokens =
        ((entries.find? (·.sameChain info.topology info.chunkTokens chain)).map (·.nTokens)).getD
          info.nTokens := by
  cases hfound : entries.find? (·.sameChain info.topology info.chunkTokens chain) with
  | some found =>
    obtain ⟨e, he, hn⟩ := @storeKv_found _ _ _ chain _ info kv lastLogits _ _ _ _ hfound
    exact ⟨e, he, hn⟩
  | none =>
    induction entries with
    | nil => exact ⟨_, List.find?_cons_of_pos (by simp [CacheEntry.sameChain]), rfl⟩
    | cons hd tl ih =>
      have hhd : ¬ hd.sameChain info.topology info.chunkTokens chain = true :=
        List.find?_eq_none.mp hfound hd List.mem_cons_self
      rw [List.find?_cons_of_neg hhd] at hfound
      unfold storeKv
      rw [if_neg hhd, List.find?_cons_of_neg hhd]
      exact ih hfound

/-- Where the prompt's own chain stands, its whole entry is the longest match. -/
theorem longestMatch_whole {c : PrefixCache K R} {keys : PrefixKeys K} {topology : TopologyTag}
    {terminal : K} {e : CacheEntry K R} (hlast : keys.chunkKeys.getLast? = some terminal)
    (he : (c.byTerminal terminal).find? (·.sameChain topology keys.chunkTokens keys.chunkKeys) = some e) :
    c.longestMatch keys topology = some ⟨keys.chunkKeys.length, e.nTokens, terminal⟩ := by
  unfold longestMatch
  cases hlen : keys.chunkKeys.length with
  | zero =>
    rw [List.length_eq_zero_iff.mp hlen] at hlast
    cases hlast
  | succ n =>
    have hkey : keys.chunkKeys[n]? = some terminal := by
      rw [List.getLast?_eq_getElem?, hlen] at hlast
      exact hlast
    have hall : keys.chunkKeys.take (n + 1) = keys.chunkKeys := List.take_of_length_le (Nat.le_of_eq hlen)
    unfold longestFrom
    rw [hkey, hall]
    dsimp only
    rw [he]

end PrefixCache

namespace PrefixServer

variable [DecidableEq K]

theorem write_byTerminal (server : PrefixServer) (c : PrefixCache K R) (w : CacheWrite K R) (k : K) :
    (server.write c w).byTerminal k = [] ∨ (server.write c w).byTerminal k = w.store k (c.byTerminal k) := by
  cases w with
  | insertSkeleton chain topology chunkTokens nTokens =>
    exact .inr (PrefixCache.insertSkeleton_byTerminal c topology chunkTokens nTokens k)
  | insertWithKv chain info kv lastLogits =>
    exact PrefixCache.insertWithKv_byTerminal server.vramBudgetBytes c info kv lastLogits k
  | touch terminal =>
    refine .inr ?_
    unfold write
    rw [PrefixCache.touch_byTerminal]
    rfl

/-- The locked section of a call, where it reaches one. -/
def callWrite (H : ChunkHash K) (server : PrefixServer) : CacheCall K R → Option (CacheWrite K R)
  | .insertSkeleton chain topology chunkTokens nTokens =>
    some (.insertSkeleton chain topology chunkTokens nTokens)
  | .touch terminal => some (.touch terminal)
  | .capture (.intermediate prompt nTokensCompleted snapshotSlot) =>
    let chunk := server.prefixCacheChunkTokens
    if !server.enabled || nTokensCompleted == 0 || nTokensCompleted % chunk != 0 ||
        decide (prompt.length ≤ nTokensCompleted) then none
    else
      (snapshotSlot nTokensCompleted).map fun snaps =>
        .insertWithKv (server.keys H (prompt.take nTokensCompleted)).chunkKeys
          ⟨server.topologyTag, chunk, nTokensCompleted, snapshotBytes snaps⟩ snaps none
  | .capture (.full prompt lastLogits snapshotSlot) =>
    if !server.enabled || decide (prompt.length < minCaptureTokens) then none
    else
      (snapshotSlot prompt.length).map fun snaps =>
        .insertWithKv (server.keys H prompt).chunkKeys
          ⟨server.topologyTag, server.prefixCacheChunkTokens, prompt.length, snapshotBytes snaps⟩ snaps
          (some lastLogits)

theorem call_write (H : ChunkHash K) (server : PrefixServer) (c : PrefixCache K R) (call : CacheCall K R) :
    server.call H c call = server.writes c (server.callWrite H call).toList := by
  cases call with
  | insertSkeleton chain topology chunkTokens nTokens => rfl
  | touch terminal => rfl
  | capture call =>
    cases call with
    | intermediate prompt n snapshotSlot =>
      unfold PrefixServer.call capture prefixCacheInsertIntermediate callWrite
      dsimp only
      split
      · rfl
      · cases snapshotSlot n <;> rfl
    | full prompt lastLogits snapshotSlot =>
      unfold PrefixServer.call capture prefixCacheTryCaptureFull callWrite
      dsimp only
      split
      · rfl
      · cases snapshotSlot prompt.length <;> rfl

/-- The sections that calls reach, in their order. -/
def callWrites (H : ChunkHash K) (server : PrefixServer) (calls : List (CacheCall K R)) :
    List (CacheWrite K R) :=
  calls.flatMap fun call => (server.callWrite H call).toList

theorem calls_writes (H : ChunkHash K) (server : PrefixServer) (c : PrefixCache K R)
    (calls : List (CacheCall K R)) :
    server.writes c (server.callWrites H calls) = calls.foldl (server.call H) c := by
  induction calls generalizing c with
  | nil => rfl
  | cons call calls ih =>
    unfold writes callWrites
    rw [List.flatMap_cons, List.foldl_append, List.foldl_cons, call_write H server c call]
    exact ih _

/-- Eviction has not taken the key since. -/
def Stands (H : ChunkHash K) (server : PrefixServer) (c : PrefixCache K R) (terminal : K)
    (calls : List (CacheCall K R)) : Prop :=
  ∀ past, past <+: calls → (past.foldl (server.call H) c).byTerminal terminal ≠ []

/-- The entry of the prompt's own chain, with its token count, and a snapshot. -/
structure Resident (H : ChunkHash K) (server : PrefixServer) (prompt : List Nat) (nTokens : Nat)
    (entries : List (CacheEntry K R)) : Prop where
  found : ∃ e, entries.find? (·.sameChain server.topologyTag server.prefixCacheChunkTokens
    (server.keys H prompt).chunkKeys) = some e ∧ e.nTokens = nTokens
  kv : ∃ e ∈ entries, e.kv.isSome

def HasLogits (entries : List (CacheEntry K R)) : Prop := ∃ e ∈ entries, e.lastLogits.isSome

theorem Resident.store {H : ChunkHash K} {server : PrefixServer} {entries : List (CacheEntry K R)}
    (h : server.Resident H prompt n entries) (k : K) (w : CacheWrite K R) :
    server.Resident H prompt n (w.store k entries) := by
  obtain ⟨⟨found, hfound, hn⟩, e, he, hkv⟩ := h
  cases w with
  | insertSkeleton chain topology chunkTokens nTokens =>
    simp only [CacheWrite.store]
    split
    · refine ⟨⟨found, ?_, hn⟩, e, List.mem_append_left _ he, hkv⟩
      rw [List.find?_append, hfound]
      rfl
    · exact ⟨⟨found, hfound, hn⟩, e, he, hkv⟩
  | insertWithKv chain info kv lastLogits =>
    simp only [CacheWrite.store]
    split
    · obtain ⟨e', he', hn'⟩ := @PrefixCache.storeKv_found _ _ _ chain _ info kv lastLogits _ _ _ _ hfound
      exact ⟨⟨e', he', hn'.trans hn⟩, PrefixCache.storeKv_kv ..⟩
    · exact ⟨⟨found, hfound, hn⟩, e, he, hkv⟩
  | touch terminal => exact ⟨⟨found, hfound, hn⟩, e, he, hkv⟩

/-- Logits under a key outlive a write that keeps them. -/
theorem hasLogits_store {entries : List (CacheEntry K R)} (h : HasLogits entries) (k : K)
    (w : CacheWrite K R) : HasLogits (w.store k entries) ↔ w.KeepsLogits k entries := by
  obtain ⟨e, he, hlogits⟩ := h
  cases w with
  | insertSkeleton chain topology chunkTokens nTokens =>
    refine ⟨fun _ => trivial, fun _ => ?_⟩
    simp only [CacheWrite.store]
    split
    · exact ⟨e, List.mem_append_left _ he, hlogits⟩
    · exact ⟨e, he, hlogits⟩
  | insertWithKv chain info kv lastLogits =>
    simp only [CacheWrite.store]
    cases lastLogits with
    | some logits =>
      refine ⟨fun _ => trivial, fun _ => ?_⟩
      split
      · exact PrefixCache.storeKv_logits.mpr (.inl rfl)
      · exact ⟨e, he, hlogits⟩
    | none =>
      simp only [CacheWrite.KeepsLogits]
      split
      · rename_i hlast
        refine ⟨fun hstored _ => ?_, fun hkeeps => PrefixCache.storeKv_logits.mpr (.inr (hkeeps hlast))⟩
        exact (PrefixCache.storeKv_logits.mp hstored).resolve_left (by simp)
      · rename_i hlast
        exact ⟨fun _ hend => absurd hend hlast, fun _ => ⟨e, he, hlogits⟩⟩
  | touch terminal => exact ⟨fun _ => trivial, fun _ => ⟨e, he, hlogits⟩⟩

/-- A call leaves the key evicted, or its entries as its section stores them. -/
theorem call_byTerminal (H : ChunkHash K) (server : PrefixServer) (c : PrefixCache K R)
    (call : CacheCall K R) (k : K) :
    (server.call H c call).byTerminal k = [] ∨ (server.call H c call).byTerminal k =
      ((server.callWrite H call).map fun w => w.store k (c.byTerminal k)).getD (c.byTerminal k) := by
  rw [call_write]
  cases server.callWrite H call with
  | none => exact .inr rfl
  | some w => exact write_byTerminal server c w k

theorem Stands.start {H : ChunkHash K} {server : PrefixServer} {c : PrefixCache K R}
    (h : server.Stands H c terminal calls) : c.byTerminal terminal ≠ [] :=
  h [] List.nil_prefix

theorem Stands.before {H : ChunkHash K} {server : PrefixServer} {c : PrefixCache K R}
    {past calls : List (CacheCall K R)} (h : server.Stands H c terminal calls) (hpast : past <+: calls) :
    server.Stands H c terminal past :=
  fun earlier hearlier => h earlier (hearlier.trans hpast)

/-- What is resident stays so while the key stands. -/
theorem resident_after {H : ChunkHash K} {server : PrefixServer} {c : PrefixCache K R}
    {calls : List (CacheCall K R)} (h : server.Resident H prompt n (c.byTerminal terminal))
    (hstands : server.Stands H c terminal calls) :
    server.Resident H prompt n ((calls.foldl (server.call H) c).byTerminal terminal) := by
  induction calls using List.reverseRecOn with
  | nil => exact h
  | append_singleton calls call ih =>
    have hbefore := ih (hstands.before (List.prefix_append calls [call]))
    have hhere := hstands _ (List.prefix_refl _)
    rw [List.foldl_concat] at hhere ⊢
    rw [(call_byTerminal H server _ call terminal).resolve_left hhere]
    cases server.callWrite H call with
    | none => exact hbefore
    | some w => exact hbefore.store terminal w

/-- One call keeps the logits of a key that stands iff its section does. -/
theorem hasLogits_call {H : ChunkHash K} {server : PrefixServer} {c : PrefixCache K R}
    (h : HasLogits (c.byTerminal terminal)) {call : CacheCall K R}
    (hstands : (server.call H c call).byTerminal terminal ≠ []) :
    HasLogits ((server.call H c call).byTerminal terminal) ↔
      ∀ w, server.callWrite H call = some w → w.KeepsLogits terminal (c.byTerminal terminal) := by
  rw [(call_byTerminal H server c call terminal).resolve_left hstands]
  cases hwrite : server.callWrite H call with
  | none => exact ⟨fun _ w hw => (by cases hw), fun _ => h⟩
  | some w =>
    refine (hasLogits_store h terminal w).trans ⟨fun hkeeps w' hw' => ?_, fun hall => hall w rfl⟩
    cases hw'
    exact hkeeps

theorem hasLogits_after {H : ChunkHash K} {server : PrefixServer} {c : PrefixCache K R}
    {calls : List (CacheCall K R)} (h : HasLogits (c.byTerminal terminal))
    (hstands : server.Stands H c terminal calls)
    (hkeeps : ∀ past call, past ++ [call] <+: calls → ∀ w, server.callWrite H call = some w →
      w.KeepsLogits terminal ((past.foldl (server.call H) c).byTerminal terminal)) :
    HasLogits ((calls.foldl (server.call H) c).byTerminal terminal) := by
  induction calls using List.reverseRecOn with
  | nil => exact h
  | append_singleton calls call ih =>
    have hlogits := ih (hstands.before (List.prefix_append calls [call])) fun past call' hpast =>
      hkeeps past call' (hpast.trans (List.prefix_append calls [call]))
    have hhere := hstands _ (List.prefix_refl _)
    rw [List.foldl_concat] at hhere ⊢
    exact (hasLogits_call hlogits hhere).mpr (hkeeps calls call (List.prefix_refl _))

/-- The restore of a resident prompt, its logits and snapshot read later. -/
theorem tryRestore_whole {H : ChunkHash K} {server : PrefixServer} {d : ModelDriver σ ε} {inflight : σ}
    {prompt : List Nat} {c : PrefixCache K R} {ws₁ ws₂ : List (CacheWrite K R)} {terminal : K}
    (henabled : server.enabled = true) (hne : prompt ≠ [])
    (hlast : (server.keys H prompt).chunkKeys.getLast? = some terminal)
    (hc : server.Resident H prompt prompt.length (c.byTerminal terminal))
    (hlogits : HasLogits ((server.writes c ws₁).byTerminal terminal))
    (hkv : ∃ e ∈ (server.writes (server.writes c ws₁) ws₂).byTerminal terminal, e.kv.isSome)
    (hrestores : ∀ kv, (d.restoreSlot inflight prompt.length kv).1 = none) :
    ∃ restored logits,
      server.tryRestore H (some d) inflight prompt c ws₁ ws₂ = .ok (restored, .fullHit logits) := by
  obtain ⟨e, he, hn⟩ := hc.found
  have hmatch := PrefixCache.longestMatch_whole hlast he
  obtain ⟨logits, hsome⟩ : ∃ logits, (server.writes c ws₁).logitsFor terminal = some logits :=
    Option.isSome_iff_exists.mp (List.findSome?_isSome_iff.mpr hlogits)
  obtain ⟨kv, hsnapshot⟩ : ∃ kv, (server.writes (server.writes c ws₁) ws₂).snapshotFor terminal = some kv :=
    Option.isSome_iff_exists.mp (List.findSome?_isSome_iff.mpr hkv)
  obtain ⟨restored, hrestored⟩ : ∃ restored, d.restoreSlot inflight prompt.length kv = (none, restored) :=
    ⟨_, Prod.ext (hrestores kv) rfl⟩
  refine ⟨restored, logits, ?_⟩
  unfold tryRestore
  rw [if_neg (by simp [henabled, hne]), hmatch]
  dsimp only
  rw [hn, if_pos (beq_self_eq_true _), hsome, hsnapshot, if_neg (by simp)]
  dsimp only
  rw [hrestored]

/-- A full hit on a prompt whose own chain stands: its entry covers all of it
and there are logits. -/
theorem tryRestore_fullHit {H : ChunkHash K} {server : PrefixServer} {driver : Option (ModelDriver σ ε)}
    {inflight restored : σ} {prompt : List Nat} {c : PrefixCache K R} {terminal : K} {logits : List R}
    (hlast : (server.keys H prompt).chunkKeys.getLast? = some terminal)
    (hc : server.Resident H prompt n (c.byTerminal terminal))
    (h : server.tryRestore H driver inflight prompt c [] [] = .ok (restored, .fullHit logits)) :
    n = prompt.length ∧ HasLogits (c.byTerminal terminal) := by
  obtain ⟨e, he, rfl⟩ := hc.found
  unfold tryRestore at h
  rw [PrefixCache.longestMatch_whole hlast he] at h
  dsimp only at h
  split at h
  · cases h
  by_cases hlen : (e.nTokens == prompt.length) = true
  · rw [if_pos hlen] at h
    refine ⟨beq_iff_eq.mp hlen, ?_⟩
    cases hfor : (server.writes c []).logitsFor terminal with
    | some found => exact List.findSome?_isSome_iff.mp (Option.isSome_iff_exists.mpr ⟨found, hfor⟩)
    | none =>
      rw [hfor, if_pos (by simp [hlen])] at h
      cases h
  · rw [if_neg hlen] at h
    split at h
    · cases h
    split at h
    · cases h
    split at h
    · cases h
    rename_i driver
    split at h
    · rename_i broken _
      cases hreset : driver.resetForNextRequest broken with
      | error e =>
        rw [hreset] at h
        cases h
      | ok fresh =>
        rw [hreset] at h
        cases h
    · cases h

/-- The capture of a whole prompt: its entry, and its logits. -/
theorem captured_resident (H : ChunkHash K) (server : PrefixServer) {c : PrefixCache K R} {prompt : List Nat}
    {logits : List R} {snapshotSlot : Nat → Option KvSnapshot} {terminal : K}
    (henabled : server.enabled = true) (hlen : minCaptureTokens ≤ prompt.length)
    (hsnaps : snapshotSlot prompt.length = some snaps)
    (hlast : (server.keys H prompt).chunkKeys.getLast? = some terminal)
    (hstored : (server.call H c (.capture (.full prompt logits snapshotSlot))).byTerminal terminal ≠ []) :
    let entries := (server.call H c (.capture (.full prompt logits snapshotSlot))).byTerminal terminal
    server.Resident H prompt ((((c.byTerminal terminal).find? (·.sameChain server.topologyTag
      server.prefixCacheChunkTokens (server.keys H prompt).chunkKeys)).map (·.nTokens)).getD prompt.length)
      entries ∧ HasLogits entries := by
  have hguard : ¬ (!server.enabled || decide (prompt.length < minCaptureTokens)) = true := by
    simp [henabled, Nat.not_lt.mpr hlen]
  have hwrite : server.callWrite (R := R) H (.capture (.full prompt logits snapshotSlot)) =
      some (.insertWithKv (server.keys H prompt).chunkKeys
        ⟨server.topologyTag, server.prefixCacheChunkTokens, prompt.length, snapshotBytes snaps⟩ snaps
        (some logits)) := by
    simp only [callWrite]
    rw [if_neg hguard, hsnaps]
    rfl
  dsimp only
  rw [(call_byTerminal H server c _ terminal).resolve_left hstored, hwrite]
  simp only [CacheWrite.store, Option.map_some, Option.getD_some]
  rw [if_pos hlast]
  have hown := PrefixCache.storeKv_own (server.keys H prompt).chunkKeys
    ⟨server.topologyTag, server.prefixCacheChunkTokens, prompt.length, snapshotBytes snaps⟩ snaps
    (some logits) (c.byTerminal terminal)
  exact ⟨⟨hown, PrefixCache.storeKv_kv ..⟩, PrefixCache.storeKv_logits.mpr (.inl rfl)⟩

/-- A captured prompt is a full hit as long as its key stands, whatever runs between the
reads of the restore, iff the entry the capture stored covers the prompt and no later
capture without logits takes the key's last logits away. -/
theorem captured_stays_full_hit (H : ChunkHash K) (server : PrefixServer) (d : ModelDriver σ ε) (inflight : σ)
    (past later : List (CacheCall K R)) {prompt : List Nat} {logits : List R}
    {snapshotSlot : Nat → Option KvSnapshot} {terminal : K}
    (henabled : server.enabled = true) (hlen : minCaptureTokens ≤ prompt.length)
    (hsnaps : snapshotSlot prompt.length = some snaps)
    (hlast : (server.keys H prompt).chunkKeys.getLast? = some terminal)
    (hrestores : ∀ kv, (d.restoreSlot inflight prompt.length kv).1 = none) :
    let before := server.afterCalls H past
    let captured := server.call H before (.capture (.full prompt logits snapshotSlot))
    (∀ now then₁ then₂, now ++ then₁ ++ then₂ <+: later →
      server.Stands H captured terminal (now ++ then₁ ++ then₂) →
        ∃ restored found, server.tryRestore H (some d) inflight prompt (now.foldl (server.call H) captured)
          (server.callWrites H then₁) (server.callWrites H then₂) = .ok (restored, .fullHit found)) ↔
    (captured.byTerminal terminal ≠ [] →
      ∀ e, (before.byTerminal terminal).find? (·.sameChain server.topologyTag
        server.prefixCacheChunkTokens (server.keys H prompt).chunkKeys) = some e →
        e.nTokens = prompt.length) ∧
    ∀ earlier call, earlier ++ [call] <+: later → server.Stands H captured terminal (earlier ++ [call]) →
      ∀ w, server.callWrite H call = some w →
        w.KeepsLogits terminal ((earlier.foldl (server.call H) captured).byTerminal terminal) := by
  intro before captured
  have hne : prompt ≠ [] := by
    rintro rfl
    exact absurd hlen (by decide)
  have hcaptured := @captured_resident _ _ _ _ H server before _ logits _ _ henabled hlen hsnaps hlast
  constructor
  · intro hhits
    have hat : ∀ now, now <+: later → server.Stands H captured terminal now →
        ∃ restored found, server.tryRestore H (some d) inflight prompt
          (now.foldl (server.call H) captured) [] [] = .ok (restored, .fullHit found) := fun now hnow hstands =>
      hhits now [] [] (by simpa using hnow) (by simpa using hstands)
    refine ⟨fun hstored e he => ?_, fun earlier call hpast hstands => ?_⟩
    · have hstands : server.Stands H captured terminal [] := fun m hm => by
        rw [List.prefix_nil.mp hm]
        exact hstored
      obtain ⟨restored, found, hhit⟩ := hat [] List.nil_prefix hstands
      have hwhole := (tryRestore_fullHit hlast (hcaptured hstored).1 hhit).1
      rw [he] at hwhole
      exact hwhole
    · have hstored := hstands.start
      have hbefore := hstands.before (List.prefix_append earlier [call])
      obtain ⟨restored, found, hhit⟩ := hat earlier ((List.prefix_append earlier [call]).trans hpast) hbefore
      have hlogits := (tryRestore_fullHit hlast (resident_after (hcaptured hstored).1 hbefore) hhit).2
      obtain ⟨restored', found', hhit'⟩ := hat (earlier ++ [call]) hpast hstands
      have hlogits' := (tryRestore_fullHit hlast (resident_after (hcaptured hstored).1 hstands) hhit').2
      have hhere := hstands _ (List.prefix_refl _)
      rw [List.foldl_concat] at hlogits' hhere
      exact (hasLogits_call hlogits hhere).mp hlogits'
  · rintro ⟨hwhole, hkeeps⟩ now then₁ then₂ hpast hstands
    have hstored := hstands.start
    obtain ⟨hresident, hlogits⟩ := hcaptured hstored
    have hcount : (((before.byTerminal terminal).find? (·.sameChain server.topologyTag
        server.prefixCacheChunkTokens (server.keys H prompt).chunkKeys)).map (·.nTokens)).getD prompt.length =
        prompt.length := by
      cases hfound : (before.byTerminal terminal).find? (·.sameChain server.topologyTag
        server.prefixCacheChunkTokens (server.keys H prompt).chunkKeys) with
      | none => rfl
      | some e => exact hwhole hstored e hfound
    rw [hcount] at hresident
    have hmid : server.Stands H captured terminal (now ++ then₁) := hstands.before (List.prefix_append _ _)
    refine tryRestore_whole henabled hne hlast
      (resident_after hresident (hmid.before (List.prefix_append _ _))) ?_ ?_ hrestores
    · rw [calls_writes, ← List.foldl_append]
      refine hasLogits_after hlogits hmid fun earlier call hcall => ?_
      have hthere := hcall.trans (List.prefix_append (now ++ then₁) then₂)
      exact hkeeps earlier call (hthere.trans hpast) (hstands.before hthere)
    · rw [calls_writes, calls_writes, ← List.foldl_append, ← List.foldl_append, ← List.append_assoc]
      exact (resident_after hresident hstands).kv

/-- Fifty tokens captured, and a longer prompt's call. -/
def fiftyCaptured : CacheCall (List (List Nat)) Nat := .capture (.full (List.range 50) [7] fun _ => some [[1]])

theorem captured_stays_full_hit_touched :
    ∃ restored found, fiftyTokens.tryRestore chunkList (some copyDriver) [] (List.range 50)
      ([CacheCall.touch [List.range 50]].foldl (fiftyTokens.call chunkList)
        (fiftyTokens.call chunkList PrefixCache.new fiftyCaptured)) [] [] =
        .ok (restored, .fullHit found) := by
  refine (@captured_stays_full_hit _ _ _ _ _ _ chunkList fiftyTokens copyDriver [] []
    [CacheCall.touch [List.range 50]] (List.range 50) [7] (fun _ => some [[1]]) [List.range 50] rfl (by decide) rfl rfl
    fun _ => rfl).mpr ⟨?_, ?_⟩ [CacheCall.touch [List.range 50]] [] [] (List.prefix_refl _) ?_
  · intro _ e he
    cases he
  · intro earlier call hpast _ w hw
    obtain rfl := List.mem_singleton.mp (hpast.subset (List.mem_append_right earlier List.mem_cons_self))
    cases hw
    trivial
  · intro mid hmid
    cases mid with
    | nil => exact List.cons_ne_nil _ _
    | cons call mid =>
      obtain ⟨rfl, hrest⟩ := List.cons_prefix_cons.mp hmid
      obtain rfl := List.prefix_nil.mp hrest
      exact List.cons_ne_nil _ _

/-- The chunk that a longer prompt captures on its way takes the logits. -/
theorem intermediate_drops_logits :
    let captured := fiftyTokens.call chunkList PrefixCache.new fiftyCaptured
    let longer := fiftyTokens.call chunkList captured
      (.capture (.intermediate (List.range 60) 50 fun _ => some [[2]]))
    longer.byTerminal [List.range 50] ≠ [] ∧
      fiftyTokens.tryRestore chunkList (some copyDriver) [] (List.range 50) captured [] [] =
        .ok ([[1]], .fullHit [7]) ∧
      fiftyTokens.tryRestore chunkList (some copyDriver) [] (List.range 50) longer [] [] = .ok ([], .miss) := by
  refine ⟨?_, rfl, rfl⟩
  exact List.cons_ne_nil _ _

end PrefixServer
end Flambeau.Server
