import Flambeau.Systems.Totals
import Flambeau.Server.PrefixHits

namespace Flambeau.Server
open Systems

namespace CacheEntry

/-- The host memory behind an entry: its snapshot and four bytes a logit. -/
def bytes (e : CacheEntry K R) : Nat := e.accounted.1 + e.accounted.2

end CacheEntry

/-- A call on the cache of a server. -/
inductive CacheCall (K R : Type) where
  | insertSkeleton (chain : List K) (topology : TopologyTag) (chunkTokens nTokens : Nat)
  | touch (terminal : K)
  | capture (call : CaptureCall R)

namespace PrefixCache

/-- The bytes of the entries under a key. -/
def weight (c : PrefixCache K R) (k : K) : Nat := ((c.byTerminal k).map CacheEntry.bytes).sum

/-- `used_bytes` is what the resident entries hold. -/
def Exact (c : PrefixCache K R) : Prop := Total c.weight c.usedBytes

variable [DecidableEq K]

/-- Eviction can reach every key that holds bytes. -/
def Tracked (c : PrefixCache K R) : Prop := ∀ k, c.weight k ≠ 0 → k ∈ c.lruOrder

omit [DecidableEq K] in
theorem foldl_released (entries : List (CacheEntry K R)) (used : Nat) :
    entries.foldl (fun used e => used - e.accounted.1 - e.accounted.2) used =
      used - (entries.map CacheEntry.bytes).sum := by
  induction entries generalizing used with
  | nil => rfl
  | cons e es ih =>
    rw [List.foldl_cons, ih, List.map_cons, List.sum_cons]
    unfold CacheEntry.bytes
    omega

theorem dropTerminal_used (c : PrefixCache K R) (victim : K) :
    (c.dropTerminal victim).usedBytes = c.usedBytes - c.weight victim := foldl_released ..

theorem dropTerminal_weight (c : PrefixCache K R) (victim k : K) :
    (c.dropTerminal victim).weight k = if k = victim then 0 else c.weight k := by
  unfold weight dropTerminal setTerminal
  dsimp only
  split <;> rfl

/-- What is left once a victim is gone. -/
theorem total_dropTerminal {c : PrefixCache K R} {n : Nat} (h : Total c.weight n) (victim : K) :
    Total (c.dropTerminal victim).weight (n - c.weight victim) := by
  have hset : Total (c.dropTerminal victim).weight (n - c.weight victim + (c.dropTerminal victim).weight victim) :=
    h.set fun j hj => by
      rw [dropTerminal_weight, if_neg hj]
  rwa [dropTerminal_weight, if_pos rfl, Nat.add_zero] at hset

theorem evictFrom_exact (budget : Nat) (order : List K) {c : PrefixCache K R} (h : c.Exact) :
    (c.evictFrom budget order).Exact := by
  induction order generalizing c with
  | nil => exact h
  | cons victim rest ih =>
    unfold evictFrom
    split
    · refine ih ?_
      unfold Exact
      rw [dropTerminal_used]
      exact total_dropTerminal h victim
    · exact h

theorem evictFrom_tracked (budget : Nat) (order : List K) {c : PrefixCache K R}
    (h : ∀ k, c.weight k ≠ 0 → k ∈ order) : (c.evictFrom budget order).Tracked := by
  induction order generalizing c with
  | nil => exact fun k hk => absurd (h k hk) List.not_mem_nil
  | cons victim rest ih =>
    unfold evictFrom
    split
    · refine ih fun k hk => ?_
      rw [dropTerminal_weight] at hk
      split at hk
      · exact absurd rfl hk
      · rename_i hne
        exact (List.mem_cons.mp (h k hk)).resolve_left hne
    · intro k hk
      exact List.mem_reverse.mpr (h k hk)

/-- A cache that has charged too little for its front key, and is thrown out down to it
where its own bytes exceed the budget. -/
theorem evictFrom_short {budget missing n : Nat} {terminal : K} (order : List K) {c : PrefixCache K R}
    (htotal : Total c.weight n) (hused : n = c.usedBytes + missing) (hmissing : missing ≤ c.weight terminal)
    (hpos : 0 < missing) (htracked : ∀ k, c.weight k ≠ 0 → k ∈ order ∨ k = terminal)
    (hfront : terminal ∉ order) :
    (c.evictFrom budget (order ++ [terminal])).Exact ↔ budget < c.weight terminal - missing := by
  induction order generalizing c n with
  | nil =>
    have honly : n = c.weight terminal := htotal.only fun k hk => by
      by_contra hzero
      exact ((htracked k hzero).resolve_left List.not_mem_nil |> hk)
    rw [List.nil_append]
    unfold evictFrom
    split
    · rename_i hover
      refine ⟨fun _ => by omega, fun _ => ?_⟩
      unfold evictFrom Exact
      change Total (c.dropTerminal terminal).weight (c.dropTerminal terminal).usedBytes
      have hdrop := total_dropTerminal htotal terminal
      rw [dropTerminal_used]
      have hsame : c.usedBytes - c.weight terminal = n - c.weight terminal := by omega
      rw [hsame]
      exact hdrop
    · refine ⟨fun hexact => ?_, fun hover => by omega⟩
      have hn : n = c.usedBytes := htotal.unique hexact
      omega
  | cons victim rest ih =>
    have hne : terminal ≠ victim := fun heq => hfront (heq ▸ List.mem_cons_self)
    have hboth : c.weight victim + c.weight terminal ≤ n := htotal.add_le hne.symm
    rw [List.cons_append]
    unfold evictFrom
    split
    · have hkeep : (c.dropTerminal victim).weight terminal = c.weight terminal := by
        rw [dropTerminal_weight, if_neg hne]
      rw [← hkeep]
      refine ih (total_dropTerminal htotal victim) ?_ ?_ ?_ fun hmem => hfront (List.mem_cons_of_mem _ hmem)
      · rw [dropTerminal_used]
        omega
      · rw [hkeep]
        exact hmissing
      · intro k hk
        rw [dropTerminal_weight] at hk
        split at hk
        · exact absurd rfl hk
        · rename_i hvictim
          exact (htracked k hk).imp_left fun hmem => (List.mem_cons.mp hmem).resolve_left hvictim
    · refine ⟨fun hexact => ?_, fun hover => by omega⟩
      have hn : n = c.usedBytes := htotal.unique hexact
      omega

/-- The bytes of a capture's logits row, which its caller does not charge. -/
def logitsBytes (lastLogits : Option (List R)) : Nat := (lastLogits.map fun l => l.length * 4).getD 0

theorem storeKv_weight (chain : List K) (info : PrefixCacheInsert) (kv : KvSnapshot)
    (lastLogits : Option (List R)) (entries : List (CacheEntry K R)) :
    replacedBytes chain info entries ≤ (entries.map CacheEntry.bytes).sum ∧
      ((storeKv chain info kv lastLogits entries).map CacheEntry.bytes).sum =
        (entries.map CacheEntry.bytes).sum - replacedBytes chain info entries + snapshotBytes kv +
          logitsBytes lastLogits := by
  induction entries with
  | nil =>
    refine ⟨Nat.le_refl 0, ?_⟩
    change snapshotBytes kv + logitsBytes lastLogits + 0 = 0 - 0 + snapshotBytes kv + logitsBytes lastLogits
    omega
  | cons e es ih =>
    obtain ⟨hle, hsum⟩ := ih
    unfold storeKv
    cases hsame : e.sameChain info.topology info.chunkTokens chain with
    | true =>
      have hreplaced : replacedBytes chain info (e :: es) = e.bytes := by
        unfold replacedBytes
        rw [List.find?_cons_of_pos hsame]
        rfl
      rw [hreplaced, if_pos rfl, List.map_cons, List.sum_cons, List.map_cons, List.sum_cons]
      refine ⟨by omega, ?_⟩
      change snapshotBytes kv + logitsBytes lastLogits + (es.map CacheEntry.bytes).sum = _
      omega
    | false =>
      have hreplaced : replacedBytes chain info (e :: es) = replacedBytes chain info es := by
        unfold replacedBytes
        rw [List.find?_cons_of_neg (by rw [hsame]; exact Bool.false_ne_true)]
      rw [hreplaced, if_neg Bool.false_ne_true, List.map_cons, List.sum_cons, List.map_cons,
        List.sum_cons, hsum]
      exact ⟨by omega, by omega⟩

/-- The bytes charged under the capture's own key once it is stored. -/
def chargedBytes (c : PrefixCache K R) (chain : List K) (info : PrefixCacheInsert) (terminal : K) : Nat :=
  c.weight terminal - replacedBytes chain info (c.byTerminal terminal) + info.bytes

theorem insertWithKv_tracked {budget : Nat} {c : PrefixCache K R} {chain : List K}
    {info : PrefixCacheInsert} {kv : KvSnapshot} {lastLogits : Option (List R)} (h : c.Tracked) :
    (c.insertWithKv budget chain info kv lastLogits).Tracked := by
  unfold insertWithKv
  cases hlast : chain.getLast? with
  | none => exact h
  | some terminal =>
    refine evictFrom_tracked budget _ fun k hk => List.mem_reverse.mpr ?_
    change k ∈ terminal :: c.lruOrder.filter (· ≠ terminal)
    by_cases hkt : k = terminal
    · exact hkt ▸ List.mem_cons_self
    · refine List.mem_cons_of_mem _ (List.mem_filter.mpr ⟨h k fun hzero => hk ?_, decide_eq_true hkt⟩)
      rw [← hzero]
      change (((c.setTerminal terminal _).byTerminal k).map CacheEntry.bytes).sum = _
      rw [setTerminal_other c _ hkt]
      rfl

/-- A capture keeps the account iff it brings no logits, or goes at once. -/
theorem insertWithKv_exact {budget : Nat} {c : PrefixCache K R} {chain : List K} {terminal : K}
    {info : PrefixCacheInsert} {kv : KvSnapshot} {lastLogits : Option (List R)} (h : c.Exact)
    (htracked : c.Tracked) (hlast : chain.getLast? = some terminal)
    (hbytes : info.bytes = snapshotBytes kv) :
    (c.insertWithKv budget chain info kv lastLogits).Exact ↔
      logitsBytes lastLogits = 0 ∨ budget < c.chargedBytes chain info terminal := by
  obtain ⟨hle, hstore⟩ := storeKv_weight chain info kv lastLogits (c.byTerminal terminal)
  have hweight : c.weight terminal ≤ c.usedBytes := h.le terminal
  change replacedBytes chain info (c.byTerminal terminal) ≤ c.weight terminal at hle
  unfold insertWithKv
  rw [hlast]
  dsimp only
  let stored := c.setTerminal terminal (storeKv chain info kv lastLogits (c.byTerminal terminal))
  let charged : PrefixCache K R :=
    { stored with
      usedBytes := stored.usedBytes - replacedBytes chain info (c.byTerminal terminal) + info.bytes }
  change ((charged.touchLru terminal).evictFrom budget (charged.touchLru terminal).lruOrder.reverse).Exact ↔ _
  have hother : ∀ k, k ≠ terminal → (charged.touchLru terminal).weight k = c.weight k := fun k hk => by
    change ((stored.byTerminal k).map CacheEntry.bytes).sum = _
    rw [setTerminal_other c _ hk]
    rfl
  have hown : (charged.touchLru terminal).weight terminal =
      c.chargedBytes chain info terminal + logitsBytes lastLogits := by
    change ((stored.byTerminal terminal).map CacheEntry.bytes).sum = _
    rw [setTerminal_same, hstore, ← hbytes]
    rfl
  have hcharged : c.chargedBytes chain info terminal =
      c.weight terminal - replacedBytes chain info (c.byTerminal terminal) + info.bytes := rfl
  have hused : (charged.touchLru terminal).usedBytes =
      c.usedBytes - replacedBytes chain info (c.byTerminal terminal) + info.bytes := rfl
  have htotal := h.set hother
  have horder : (charged.touchLru terminal).lruOrder.reverse =
      (c.lruOrder.filter (· ≠ terminal)).reverse ++ [terminal] := List.reverse_cons ..
  rcases Nat.eq_zero_or_pos (logitsBytes lastLogits) with hzero | hpos
  · refine ⟨fun _ => .inl hzero, fun _ => evictFrom_exact budget _ ?_⟩
    unfold Exact
    have hsame : (charged.touchLru terminal).usedBytes =
        c.usedBytes - c.weight terminal + (charged.touchLru terminal).weight terminal := by
      rw [hown, hused, hcharged, hzero]
      omega
    rw [hsame]
    exact htotal
  · rw [horder, evictFrom_short _ htotal (by rw [hown, hused, hcharged]; omega)
      (by rw [hown]; exact Nat.le_add_left ..) hpos ?_ ?_, hown, Nat.add_sub_cancel]
    · exact ⟨.inr, fun hor => hor.resolve_left (by omega)⟩
    · intro k hk
      by_cases hkt : k = terminal
      · exact .inr hkt
      · rw [hother k hkt] at hk
        exact .inl (List.mem_reverse.mpr (List.mem_filter.mpr ⟨htracked k hk, decide_eq_true hkt⟩))
    · simp

end PrefixCache

namespace PrefixServer

variable [DecidableEq K]

/-- A call on the server's cache. -/
def call (H : ChunkHash K) (server : PrefixServer) (c : PrefixCache K R) : CacheCall K R → PrefixCache K R
  | .insertSkeleton chain topology chunkTokens nTokens =>
    c.insertSkeleton chain topology chunkTokens nTokens
  | .touch terminal => c.touch server.enabled terminal
  | .capture call => server.capture H c call

def afterCalls (H : ChunkHash K) (server : PrefixServer) (calls : List (CacheCall K R)) : PrefixCache K R :=
  calls.foldl (server.call H) PrefixCache.new

/-- A full capture that is stored has no logits, or is thrown out again at once. -/
def Charged (H : ChunkHash K) (server : PrefixServer) (c : PrefixCache K R) : CacheCall K R → Prop
  | .capture (.full prompt lastLogits snapshotSlot) =>
    server.enabled = true → minCaptureTokens ≤ prompt.length →
      ∀ snaps, snapshotSlot prompt.length = some snaps → lastLogits = [] ∨
        ∀ terminal, (server.keys H prompt).chunkKeys.getLast? = some terminal →
          server.vramBudgetBytes < c.chargedBytes (server.keys H prompt).chunkKeys
            ⟨server.topologyTag, server.prefixCacheChunkTokens, prompt.length, snapshotBytes snaps⟩ terminal
  | _ => True

omit [DecidableEq K] in
theorem keys_nonempty (H : ChunkHash K) (server : PrefixServer) {prompt : List Nat} (hne : prompt ≠ []) :
    ∃ terminal, (server.keys H prompt).chunkKeys.getLast? = some terminal := by
  have hchunks : promptChunks prompt server.prefixCacheChunkTokens ≠ [] := fun hnil => by
    have hflat := promptChunks_flatten prompt server.prefixCacheChunkTokens
    rw [hnil] at hflat
    exact hne hflat.symm
  have hkeys : (server.keys H prompt).chunkKeys ≠ [] := fun hnil => hchunks (by
    have hlen := ChunkHash.chain_length H H.seed (promptChunks prompt server.prefixCacheChunkTokens)
    change ((server.keys H prompt).chunkKeys).length = _ at hlen
    rw [hnil] at hlen
    exact List.length_eq_zero_iff.mp hlen.symm)
  exact ⟨_, List.getLast?_eq_some_getLast hkeys⟩

theorem insertSkeleton_weight (c : PrefixCache K R) (chain : List K) (topology : TopologyTag)
    (chunkTokens nTokens : Nat) :
    (c.insertSkeleton chain topology chunkTokens nTokens).weight = c.weight ∧
      (c.insertSkeleton chain topology chunkTokens nTokens).usedBytes = c.usedBytes ∧
      (c.insertSkeleton chain topology chunkTokens nTokens).lruOrder = c.lruOrder := by
  refine ⟨?_, ?_, ?_⟩
  · funext k
    unfold PrefixCache.weight
    rw [PrefixCache.insertSkeleton_byTerminal]
    split
    · rw [List.map_append, List.sum_append]
      rfl
    · rfl
  · unfold PrefixCache.insertSkeleton
    split <;> rfl
  · unfold PrefixCache.insertSkeleton
    split <;> rfl

theorem call_tracked {H : ChunkHash K} {server : PrefixServer} {c : PrefixCache K R} (h : c.Tracked)
    (call : CacheCall K R) : (server.call H c call).Tracked := by
  cases call with
  | insertSkeleton chain topology chunkTokens nTokens =>
    obtain ⟨hweight, -, horder⟩ := insertSkeleton_weight c chain topology chunkTokens nTokens
    intro k hk
    change (c.insertSkeleton chain topology chunkTokens nTokens).weight k ≠ 0 at hk
    rw [hweight] at hk
    change k ∈ (c.insertSkeleton chain topology chunkTokens nTokens).lruOrder
    rw [horder]
    exact h k hk
  | touch terminal =>
    unfold PrefixServer.call PrefixCache.touch
    dsimp only
    split
    · intro k hk
      change k ∈ terminal :: c.lruOrder.filter (· ≠ terminal)
      by_cases hkt : k = terminal
      · exact hkt ▸ List.mem_cons_self
      · exact List.mem_cons_of_mem _ (List.mem_filter.mpr ⟨h k hk, decide_eq_true hkt⟩)
    · exact h
  | capture call =>
    cases call with
    | intermediate prompt n snapshotSlot =>
      unfold PrefixServer.call capture prefixCacheInsertIntermediate
      dsimp only
      split
      · exact h
      · split
        · exact h
        · exact PrefixCache.insertWithKv_tracked h
    | full prompt lastLogits snapshotSlot =>
      unfold PrefixServer.call capture prefixCacheTryCaptureFull
      dsimp only
      split
      · exact h
      · split
        · exact h
        · exact PrefixCache.insertWithKv_tracked h

/-- One call keeps the account exact iff it is charged in full. -/
theorem call_exact {H : ChunkHash K} {server : PrefixServer} {c : PrefixCache K R} (h : c.Exact)
    (htracked : c.Tracked) (call : CacheCall K R) :
    (server.call H c call).Exact ↔ server.Charged H c call := by
  cases call with
  | insertSkeleton chain topology chunkTokens nTokens =>
    refine ⟨fun _ => trivial, fun _ => ?_⟩
    obtain ⟨hweight, hused, -⟩ := insertSkeleton_weight c chain topology chunkTokens nTokens
    change Total (c.insertSkeleton chain topology chunkTokens nTokens).weight
      (c.insertSkeleton chain topology chunkTokens nTokens).usedBytes
    rw [hweight, hused]
    exact h
  | touch terminal =>
    refine ⟨fun _ => trivial, fun _ => ?_⟩
    unfold PrefixServer.call PrefixCache.touch
    dsimp only
    split <;> exact h
  | capture call =>
    cases call with
    | intermediate prompt n snapshotSlot =>
      refine ⟨fun _ => trivial, fun _ => ?_⟩
      unfold PrefixServer.call capture prefixCacheInsertIntermediate
      dsimp only
      split
      · exact h
      · rename_i hguard
        split
        · exact h
        · have hne : prompt.take n ≠ [] := fun hnil => by
            simp only [Bool.or_eq_true, beq_iff_eq, decide_eq_true_eq, not_or] at hguard
            rw [List.take_eq_nil_iff] at hnil
            rcases hnil with hzero | rfl
            · exact hguard.1.1.2 hzero
            · exact hguard.2 (Nat.zero_le n)
          obtain ⟨terminal, hlast⟩ := keys_nonempty H server hne
          exact (PrefixCache.insertWithKv_exact h htracked hlast rfl).mpr (.inl rfl)
    | full prompt lastLogits snapshotSlot =>
      unfold PrefixServer.call capture prefixCacheTryCaptureFull Charged
      dsimp only
      split
      · rename_i hguard
        refine ⟨fun _ henabled hlen => ?_, fun _ => h⟩
        rw [henabled] at hguard
        simp only [Bool.not_true, Bool.false_or, decide_eq_true_eq] at hguard
        exact absurd hguard (Nat.not_lt.mpr hlen)
      · rename_i hguard
        simp only [Bool.or_eq_true, Bool.not_eq_true', decide_eq_true_eq, not_or, Bool.not_eq_false,
          Nat.not_lt] at hguard
        cases hsnaps : snapshotSlot prompt.length with
        | none => exact ⟨fun _ _ _ snaps hsome => (by cases hsome), fun _ => h⟩
        | some snaps =>
          have hne : prompt ≠ [] := fun hnil => by
            rw [hnil] at hguard
            exact absurd hguard.2 (by decide)
          obtain ⟨terminal, hlast⟩ := keys_nonempty H server hne
          have hzero : PrefixCache.logitsBytes (some lastLogits) = 0 ↔ lastLogits = [] := by
            change lastLogits.length * 4 = 0 ↔ _
            rw [← List.length_eq_zero_iff]
            omega
          dsimp only
          rw [PrefixCache.insertWithKv_exact h htracked hlast rfl, hzero]
          constructor
          · intro hor _ _ snaps' hsnaps'
            cases hsnaps'
            refine hor.imp_right fun hbudget terminal' hlast' => ?_
            rw [hlast] at hlast'
            cases hlast'
            exact hbudget
          · intro hcharged
            exact (hcharged hguard.1 hguard.2 snaps rfl).imp_right fun hall => hall terminal hlast

omit [DecidableEq K] in
theorem new_exact : (PrefixCache.new : PrefixCache K R).Exact ∧ (PrefixCache.new : PrefixCache K R).Tracked :=
  ⟨Total.zero, fun _ hk => absurd rfl hk⟩

theorem afterCalls_tracked (H : ChunkHash K) (server : PrefixServer) (calls : List (CacheCall K R)) :
    (server.afterCalls H calls).Tracked := by
  induction calls using List.reverseRecOn with
  | nil => exact new_exact.2
  | append_singleton calls call ih =>
    unfold afterCalls
    rw [List.foldl_concat]
    exact call_tracked ih call

/-- The account is exact after every call of a run iff every call is charged in full. -/
theorem accounting_exact (H : ChunkHash K) (server : PrefixServer) (calls : List (CacheCall K R)) :
    (∀ past, past <+: calls → (server.afterCalls H past).Exact) ↔
      ∀ past call, past ++ [call] <+: calls → server.Charged H (server.afterCalls H past) call := by
  have hstep : ∀ (past : List (CacheCall K R)) (call : CacheCall K R),
      server.afterCalls H (past ++ [call]) = server.call H (server.afterCalls H past) call :=
    fun past call => List.foldl_concat ..
  constructor
  · intro h past call hleading
    have hpast := h past ((List.prefix_append past [call]).trans hleading)
    have hnext := h (past ++ [call]) hleading
    rw [hstep] at hnext
    exact (call_exact hpast (afterCalls_tracked H server past) call).mp hnext
  · intro h past
    induction past using List.reverseRecOn with
    | nil => exact fun _ => new_exact.1
    | append_singleton past call ih =>
      intro hleading
      have hpast := ih ((List.prefix_append past [call]).trans hleading)
      rw [hstep]
      exact (call_exact hpast (afterCalls_tracked H server past) call).mpr (h past call hleading)

/-- One captured prompt of fifty tokens: a byte of snapshot, a logit of four bytes. -/
theorem logits_not_charged :
    let server : PrefixServer := ⟨true, ⟨"pp", 1, 1, 1⟩, 50, 100, by decide⟩
    let calls : List (CacheCall (List (List Nat)) Nat) :=
      [.capture (.full (List.range 50) [7] fun _ => some [[1]])]
    (server.afterCalls chunkList calls).usedBytes = 1 ∧ ¬ (server.afterCalls chunkList calls).Exact := by
  refine ⟨by decide +kernel, fun hexact => ?_⟩
  have hle := hexact.le [List.range 50]
  revert hle
  decide +kernel

end PrefixServer
end Flambeau.Server
