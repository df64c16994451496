import Mathlib.Data.List.Induction
import Flambeau.Systems.Recency
import Flambeau.Server.PrefixCache

namespace Flambeau.Server
open Systems

/-- A call that changes the cache. -/
inductive CacheOp (K R : Type) where
  | insertSkeleton (chain : List K) (topology : TopologyTag) (chunkTokens nTokens : Nat)
  | touch (terminal : K)
  | insertWithKv (chain : List K) (info : PrefixCacheInsert) (kv : KvSnapshot)
      (lastLogits : Option (List R))

namespace PrefixCache

variable [DecidableEq K] {c : PrefixCache K R} {budget : Nat}

def run (budget : Nat) (enabled : Bool) (c : PrefixCache K R) : CacheOp K R → PrefixCache K R
  | .insertSkeleton chain topology chunkTokens nTokens =>
    c.insertSkeleton chain topology chunkTokens nTokens
  | .touch terminal => c.touch enabled terminal
  | .insertWithKv chain info kv lastLogits => c.insertWithKv budget chain info kv lastLogits

omit [DecidableEq K] in
/-- The terminal key a call uses: the one a hit touches or an insert stores under. -/
def usedKey (enabled : Bool) : CacheOp K R → Option K
  | .insertSkeleton .. => none
  | .touch terminal => if enabled then some terminal else none
  | .insertWithKv chain .. => chain.getLast?

/-- The cache after a server's calls. -/
def afterOps (budget : Nat) (enabled : Bool) (ops : List (CacheOp K R)) : PrefixCache K R :=
  ops.foldl (run budget enabled) new

omit [DecidableEq K] in
/-- The keys used, the newest use first. -/
def usedKeys (enabled : Bool) (ops : List (CacheOp K R)) : List K :=
  (ops.filterMap (usedKey enabled)).reverse

/-- The keys with a snapshot are those the eviction loop can reach. -/
def Bearing (c : PrefixCache K R) (order : List K) : Prop :=
  ∀ k, ∀ e ∈ c.byTerminal k, e.kv ≠ none → k ∈ order

omit [DecidableEq K] in
def NoKv (c : PrefixCache K R) : Prop := ∀ k, ∀ e ∈ c.byTerminal k, e.kv = none

/-- Within the budget, or nothing left to evict. -/
def Restored (budget : Nat) (c : PrefixCache K R) : Prop := c.usedBytes ≤ budget ∨ c.NoKv

/-- The cache once a list of victims is gone. -/
def dropAll (c : PrefixCache K R) (victims : List K) : PrefixCache K R :=
  victims.foldl dropTerminal c

theorem dropTerminal_byTerminal (c : PrefixCache K R) (victim k : K) :
    (c.dropTerminal victim).byTerminal k = if k = victim then [] else c.byTerminal k := rfl

theorem dropAll_byTerminal (c : PrefixCache K R) (victims : List K) (k : K) :
    (c.dropAll victims).byTerminal k = if k ∈ victims then [] else c.byTerminal k := by
  induction victims generalizing c with
  | nil => simp [dropAll]
  | cons v vs ih =>
    change ((c.dropTerminal v).dropAll vs).byTerminal k = _
    rw [ih, dropTerminal_byTerminal]
    by_cases hvs : k ∈ vs
    · rw [if_pos hvs, if_pos (List.mem_cons_of_mem _ hvs)]
    · by_cases hv : k = v
      · rw [if_neg hvs, if_pos hv, if_pos (hv ▸ List.mem_cons_self)]
      · rw [if_neg hvs, if_neg hv, if_neg (by simp [hv, hvs])]

/-- What the loop did: it dropped victims from the back of the order, each while
the cache was over its budget, and stopped within it or with none left. -/
structure Evicted (budget : Nat) (c c' : PrefixCache K R) (order victims : List K) : Prop where
  split : order = victims ++ c'.lruOrder.reverse
  byTerminal : ∀ k, c'.byTerminal k = if k ∈ victims then [] else c.byTerminal k
  overBudget : ∀ gone v rest, victims = gone ++ v :: rest → budget < (c.dropAll gone).usedBytes
  stops : c'.usedBytes ≤ budget ∨ c'.lruOrder = []

theorem evictFrom_evicted (budget : Nat) (c : PrefixCache K R) (order : List K) :
    ∃ victims, Evicted budget c (c.evictFrom budget order) order victims := by
  induction order generalizing c with
  | nil => exact ⟨[], rfl, fun k => (by simp [evictFrom]), by simp, .inr rfl⟩
  | cons victim rest ih =>
    by_cases hover : budget < c.usedBytes
    · obtain ⟨victims, h⟩ := ih (c.dropTerminal victim)
      have hrun : c.evictFrom budget (victim :: rest) =
          (c.dropTerminal victim).evictFrom budget rest := by
        rw [evictFrom, if_pos hover]
      rw [hrun]
      refine ⟨victim :: victims, ?_, ?_, ?_, h.stops⟩
      · rw [List.cons_append, ← h.split]
      · intro k
        rw [h.byTerminal, dropTerminal_byTerminal]
        by_cases hvs : k ∈ victims
        · rw [if_pos hvs, if_pos (List.mem_cons_of_mem _ hvs)]
        · by_cases hv : k = victim
          · rw [if_neg hvs, if_pos hv, if_pos (hv ▸ List.mem_cons_self)]
          · rw [if_neg hvs, if_neg hv, if_neg (by simp [hv, hvs])]
      · intro gone v after hsplit
        cases gone with
        | nil => exact hover
        | cons g gone =>
          simp only [List.cons_append, List.cons.injEq] at hsplit
          obtain ⟨rfl, hsplit⟩ := hsplit
          exact h.overBudget gone v after hsplit
    · have hrun : c.evictFrom budget (victim :: rest) =
          { c with lruOrder := (victim :: rest).reverse } := by
        rw [evictFrom, if_neg hover]
      rw [hrun]
      refine ⟨[], ?_, fun k => (by simp), by simp, .inl ?_⟩
      · rw [List.reverse_reverse, List.nil_append]
      · exact Nat.not_lt.mp hover

/-- The cache of `insert_with_kv` before its eviction loop. -/
def front (c : PrefixCache K R) (chain : List K) (terminal : K) (info : PrefixCacheInsert)
    (kv : KvSnapshot) (lastLogits : Option (List R)) : PrefixCache K R :=
  let entries := c.byTerminal terminal
  let stored := c.setTerminal terminal (storeKv chain info kv lastLogits entries)
  touchLru { stored with usedBytes := stored.usedBytes - replacedBytes chain info entries + info.bytes }
    terminal

theorem insertWithKv_front {chain : List K} (hlast : chain.getLast? = some terminal) (info : PrefixCacheInsert)
    (kv : KvSnapshot) (lastLogits : Option (List R)) :
    c.insertWithKv budget chain info kv lastLogits =
      (c.front chain terminal info kv lastLogits).evictFrom budget
        (c.front chain terminal info kv lastLogits).lruOrder.reverse := by
  unfold insertWithKv
  rw [hlast]
  rfl

theorem front_bearing (h : c.Bearing c.lruOrder) (chain : List K) (terminal : K)
    (info : PrefixCacheInsert) (kv : KvSnapshot) (lastLogits : Option (List R)) :
    (c.front chain terminal info kv lastLogits).Bearing
      (c.front chain terminal info kv lastLogits).lruOrder := by
  intro k e he hkv
  change k ∈ terminal :: c.lruOrder.filter (· ≠ terminal)
  by_cases hk : k = terminal
  · exact hk ▸ List.mem_cons_self
  · have hsame : (c.front chain terminal info kv lastLogits).byTerminal k = c.byTerminal k :=
      setTerminal_other c _ hk
    rw [hsame] at he
    exact List.mem_cons_of_mem _ (List.mem_filter.mpr ⟨h k e he hkv, decide_eq_true hk⟩)

theorem Evicted.bearing (h : Evicted budget c c' c.lruOrder.reverse victims)
    (hb : c.Bearing c.lruOrder) : c'.Bearing c'.lruOrder := by
  intro k e he hkv
  rw [h.byTerminal] at he
  by_cases hk : k ∈ victims
  · rw [if_pos hk] at he
    cases he
  · rw [if_neg hk] at he
    have hin : k ∈ victims ++ c'.lruOrder.reverse := by
      rw [← h.split]
      exact List.mem_reverse.mpr (hb k e he hkv)
    exact List.mem_reverse.mp ((List.mem_append.mp hin).resolve_left hk)

/-- Where nothing is left in the order, no entry has a snapshot. -/
theorem Evicted.restored (h : Evicted budget c c' c.lruOrder.reverse victims)
    (hb : c.Bearing c.lruOrder) : c'.Restored budget := by
  refine h.stops.imp_right ?_
  intro hnone k e he
  by_contra hkv
  have hin := h.bearing hb k e he hkv
  rw [hnone] at hin
  cases hin

theorem Evicted.order (h : Evicted budget c c' c.lruOrder.reverse victims) :
    c.lruOrder = c'.lruOrder ++ victims.reverse := by
  have hsplit := congrArg List.reverse h.split
  rwa [List.reverse_reverse, List.reverse_append, List.reverse_reverse] at hsplit

/-- A victim was used before every key that is left when it goes. -/
theorem Evicted.least (h : Evicted budget c c' c.lruOrder.reverse victims)
    (hr : Recency uses c.lruOrder) (hv : victims = gone ++ v :: rest)
    (hk : k ∈ rest ∨ k ∈ c'.lruOrder) : uses.idxOf k < uses.idxOf v := by
  have horder : c.lruOrder = (c'.lruOrder ++ rest.reverse) ++ v :: gone.reverse := by
    rw [h.order, hv]
    simp
  rw [horder] at hr
  refine hr.before ?_
  rw [List.mem_append, List.mem_reverse]
  exact hk.symm

/-- What every call keeps: the order is by last use, the keys with a snapshot are in
it, and the budget is met or nothing can go. -/
structure Ordered (budget : Nat) (uses : List K) (c : PrefixCache K R) : Prop where
  recency : Recency uses c.lruOrder
  bearing : c.Bearing c.lruOrder
  restored : c.Restored budget

theorem Ordered.insertSkeleton (h : Ordered budget uses c) (chain : List K)
    (topology : TopologyTag) (chunkTokens nTokens : Nat) :
    Ordered budget uses (c.insertSkeleton chain topology chunkTokens nTokens) := by
  have hentries : ∀ k, ∀ e ∈ (c.insertSkeleton chain topology chunkTokens nTokens).byTerminal k,
      e ∈ c.byTerminal k ∨ e.kv = none := by
    intro k e he
    rw [insertSkeleton_byTerminal] at he
    split at he
    · rcases List.mem_append.mp he with he | he
      · exact .inl he
      · rw [List.mem_singleton] at he
        subst he
        exact .inr rfl
    · exact .inl he
  have horder : (c.insertSkeleton chain topology chunkTokens nTokens).lruOrder = c.lruOrder := by
    unfold PrefixCache.insertSkeleton
    split <;> rfl
  have hused : (c.insertSkeleton chain topology chunkTokens nTokens).usedBytes = c.usedBytes := by
    unfold PrefixCache.insertSkeleton
    split <;> rfl
  refine ⟨horder ▸ h.recency, ?_, ?_⟩
  · intro k e he hkv
    rw [horder]
    exact h.bearing k e ((hentries k e he).resolve_right hkv) hkv
  · refine h.restored.imp (fun hle => ?_) ?_
    · rw [hused]
      exact hle
    · intro hnone k e he
      exact (hentries k e he).elim (hnone k e) id

theorem Ordered.touchLru (h : Ordered budget uses c) (terminal : K) :
    Ordered budget (terminal :: uses) (c.touchLru terminal) := by
  refine ⟨h.recency.use terminal, ?_, h.restored⟩
  intro k e he hkv
  change k ∈ terminal :: c.lruOrder.filter (· ≠ terminal)
  by_cases hk : k = terminal
  · exact hk ▸ List.mem_cons_self
  · exact List.mem_cons_of_mem _ (List.mem_filter.mpr ⟨h.bearing k e he hkv, decide_eq_true hk⟩)

theorem Ordered.front (h : Ordered budget uses c) (chain : List K) (terminal : K)
    (info : PrefixCacheInsert) (kv : KvSnapshot) (lastLogits : Option (List R)) :
    Recency (terminal :: uses) (c.front chain terminal info kv lastLogits).lruOrder :=
  h.recency.use terminal

theorem Ordered.insertWithKv {chain : List K} (h : Ordered budget uses c) (hlast : chain.getLast? = some terminal)
    (info : PrefixCacheInsert) (kv : KvSnapshot) (lastLogits : Option (List R)) :
    Ordered budget (terminal :: uses) (c.insertWithKv budget chain info kv lastLogits) := by
  rw [insertWithKv_front hlast]
  obtain ⟨victims, hev⟩ := evictFrom_evicted budget (c.front chain terminal info kv lastLogits)
    (c.front chain terminal info kv lastLogits).lruOrder.reverse
  have hbearing := front_bearing h.bearing chain terminal info kv lastLogits
  refine ⟨?_, hev.bearing hbearing, hev.restored hbearing⟩
  have hrecent := h.front chain terminal info kv lastLogits
  rw [hev.order] at hrecent
  exact hrecent.sublist (List.sublist_append_left _ _)

theorem Ordered.run (h : Ordered budget uses c) (enabled : Bool) (op : CacheOp K R) :
    Ordered budget ((usedKey enabled op).toList ++ uses) (c.run budget enabled op) := by
  cases op with
  | insertSkeleton chain topology chunkTokens nTokens =>
    exact h.insertSkeleton chain topology chunkTokens nTokens
  | touch terminal =>
    unfold PrefixCache.run usedKey touch
    cases enabled with
    | true => exact h.touchLru terminal
    | false => exact h
  | insertWithKv chain info kv lastLogits =>
    change Ordered budget (chain.getLast?.toList ++ uses) (c.insertWithKv budget chain info kv lastLogits)
    cases hlast : chain.getLast? with
    | none =>
      have hsame : c.insertWithKv budget chain info kv lastLogits = c := by
        unfold PrefixCache.insertWithKv
        rw [hlast]
      rw [hsame]
      exact h
    | some terminal => exact h.insertWithKv hlast info kv lastLogits

theorem afterOps_ordered (budget : Nat) (enabled : Bool) (ops : List (CacheOp K R)) :
    Ordered budget (usedKeys enabled ops) (afterOps budget enabled ops) := by
  induction ops using List.reverseRecOn with
  | nil => exact ⟨.nil _, fun k e he => (by cases he), .inl (Nat.zero_le _)⟩
  | append_singleton ops op ih =>
    have huses : usedKeys enabled (ops ++ [op]) = (usedKey enabled op).toList ++ usedKeys enabled ops := by
      unfold usedKeys
      rw [List.filterMap_append, List.reverse_append]
      cases hkey : usedKey enabled op with
      | none => simp [hkey]
      | some k => simp [hkey]
    unfold afterOps
    rw [List.foldl_concat, huses]
    exact ih.run enabled op

/-- The victims go in the order of their last use: each while the budget is
exceeded, and used before every key that is left and every other key that still has
a snapshot. -/
structure LeastFirst (budget : Nat) (uses : List K) (c c' : PrefixCache K R) (victims : List K) :
    Prop where
  evicted : Evicted budget c c' c.lruOrder.reverse victims
  left : ∀ gone v rest, victims = gone ++ v :: rest → ∀ k, k ∈ rest ∨ k ∈ c'.lruOrder →
    uses.idxOf k < uses.idxOf v
  bearing : ∀ gone v rest, victims = gone ++ v :: rest →
    ∀ k, ∀ e ∈ (c.dropAll gone).byTerminal k, e.kv ≠ none → k ≠ v → uses.idxOf k < uses.idxOf v

theorem Evicted.leastFirst (h : Evicted budget c c' c.lruOrder.reverse victims)
    (hr : Recency uses c.lruOrder) (hb : c.Bearing c.lruOrder) :
    LeastFirst budget uses c c' victims := by
  refine ⟨h, fun gone v rest hv k hk => h.least hr hv hk, ?_⟩
  intro gone v rest hv k e he hkv hne
  refine h.least hr hv ?_
  rw [dropAll_byTerminal] at he
  by_cases hgone : k ∈ gone
  · rw [if_pos hgone] at he
    cases he
  · rw [if_neg hgone] at he
    have hin := hb k e he hkv
    rw [h.order, hv] at hin
    simp only [List.mem_append, List.mem_reverse, List.mem_cons] at hin
    rcases hin with hin | hin | hin | hin
    · exact .inr hin
    · exact absurd hin hgone
    · exact absurd hin hne
    · exact .inl hin

/-- After any calls the order has no key twice and every key with a snapshot, by
last use; an insert then ends within the budget or with no snapshot left, and
takes the least recently used terminals. -/
theorem eviction_restores_budget (budget : Nat) (enabled : Bool) (ops : List (CacheOp K R)) :
    let c := afterOps budget enabled ops
    c.lruOrder.Nodup ∧ c.Bearing c.lruOrder ∧ Recency (usedKeys enabled ops) c.lruOrder ∧
    ∀ (chain : List K) (info : PrefixCacheInsert) (kv : KvSnapshot) (lastLogits : Option (List R)),
      let c' := c.insertWithKv budget chain info kv lastLogits
      c'.Restored budget ∧ ∀ terminal, chain.getLast? = some terminal →
        ∃ victims, LeastFirst budget (terminal :: usedKeys enabled ops)
          (c.front chain terminal info kv lastLogits) c' victims := by
  intro c
  have hc : Ordered budget (usedKeys enabled ops) c := afterOps_ordered budget enabled ops
  refine ⟨hc.recency.nodup, hc.bearing, hc.recency, ?_⟩
  intro chain info kv lastLogits c'
  constructor
  · exact (hc.run enabled (.insertWithKv chain info kv lastLogits)).restored
  · intro terminal hlast
    change ∃ victims, LeastFirst budget _ _ (c.insertWithKv budget chain info kv lastLogits) victims
    rw [insertWithKv_front hlast]
    obtain ⟨victims, hev⟩ := evictFrom_evicted budget (c.front chain terminal info kv lastLogits)
      (c.front chain terminal info kv lastLogits).lruOrder.reverse
    exact ⟨victims, hev.leastFirst (hc.front chain terminal info kv lastLogits)
      (front_bearing hc.bearing chain terminal info kv lastLogits)⟩

end PrefixCache
end Flambeau.Server
