import StackTrace.Threads.Registry
import StackTrace.Tree.Pack
import StackTrace.Tree.Replies
import StackTrace.Tree.Stacks

/-!
# The call stacks of all threads

`StackTrace.cpp`, lines 1129–1155, 1222–1240 and 1861–1866. `getAllCallStacks` takes the call
stack of each registered thread, looks all addresses up in one table, and enters the stacks
into one tree. The monitor of another rank packs such a tree, and `getGlobalCallStacks`
merges what it unpacks.

* `getAllCallStacks_counts`: the tree has one node for each way that the call stack of some
  thread begins with, it counts these threads, and it survives `pack` and `unpack`.
* `getGlobalCallStacks_counts`: the same for the threads of all ranks, if in one place of
  the trees the same address never stands for two functions.
-/

namespace StackTrace

open Registry (registeredThreads)

/-! ## Model -/

/-- What `backtrace( tid )` returns (lines 1129–1135): its buffer has 1000 entries. -/
structure Trace where
  addresses : List UInt64
  length_le : addresses.length ≤ 1000

/-- What `getAllCallStacks` finds: the process, its registry, and the call stack of each
    thread at this moment. -/
structure Rank (τ : Type) where
  process : Process
  fuel : ℕ
  registry : Registry τ
  backtrace : τ → Trace

namespace Rank

variable {τ : Type} (R : Rank τ)

/-- `backtraceAll` (lines 1143–1155). -/
def backtraceAll : List (List UInt64) :=
  (registeredThreads R.registry).map fun tid => (R.backtrace tid).addresses

/-- The call stacks of all threads, as `generateStacks` has them. -/
def callStacks : Option (List (List StackInfo)) := generateStacks R.process R.fuel R.backtraceAll

/-- `getAllCallStacks` (lines 1233–1240) with `generateMultiStack( threads )` (lines
    1222–1232). -/
def getAllCallStacks : Option MultiStackInfo :=
  generateMultiStack R.process R.fuel R.backtraceAll

end Rank

/-! ## The frames of one process -/

/-- Each entry has the address of the trace, and an address has one frame in all of them. -/
theorem generateStacks_frames {p : Process} {fuel : ℕ} {trace : List (List UInt64)}
    {S : List (List StackInfo)} (hsize : trace.flatten.eraseDups.length ≤ 2147483648)
    (h : generateStacks p fuel trace = some S) :
    S.map (List.map StackInfo.address) = trace ∧ StackInfo.OneProcess {f | ∃ s ∈ S, f ∈ s} := by
  obtain ⟨stack_data, hdata, -⟩ := Option.bind_eq_some_iff.mp h
  have haddress := address_getStackInfo hdata
  have hlength : stack_data.length = (addressTable trace).length := by
    rw [← haddress, List.length_map]
  obtain rfl := Option.some.inj ((generateStacksWith_eq hsize hdata hlength).symm.trans h)
  have htable := addressTable_eq (hsize.trans (by decide))
  -- the frame of an address in the table has this address
  have hframe : ∀ tmp ∈ trace, ∀ ptr ∈ tmp,
      (stack_data.getD ((addressTable trace).idxOf ptr) .init).address = ptr := by
    intro tmp htmp ptr hptr
    have hmem : ptr ∈ addressTable trace := by
      rw [htable, List.mem_eraseDups]
      exact List.mem_flatten_of_mem htmp hptr
    have hlt : (addressTable trace).idxOf ptr < stack_data.length := by
      rw [hlength]
      exact List.idxOf_lt_length_of_mem hmem
    rw [List.getD_eq_getElem _ _ hlt]
    have hget := List.getElem?_idxOf hmem
    rw [← haddress, List.getElem?_map, haddress, List.getElem?_eq_getElem hlt] at hget
    simpa using hget
  constructor
  · rw [List.map_map]
    refine (List.map_congr_left fun tmp htmp => ?_).trans (List.map_id _)
    rw [Function.comp_apply, List.map_map]
    exact (List.map_congr_left fun ptr hptr => hframe tmp htmp ptr hptr).trans (List.map_id _)
  · rintro f ⟨s, hs, hf⟩ g ⟨s', hs', hg⟩ hfg
    obtain ⟨tmp, htmp, rfl⟩ := List.mem_map.mp hs
    obtain ⟨tmp', htmp', rfl⟩ := List.mem_map.mp hs'
    obtain ⟨ptr, hptr, rfl⟩ := List.mem_map.mp hf
    obtain ⟨ptr', hptr', rfl⟩ := List.mem_map.mp hg
    rw [hframe tmp htmp ptr hptr, hframe tmp' htmp' ptr' hptr'] at hfg
    subst hfg
    exact ⟨rfl, rfl⟩

theorem length_flatten_le {α : Type*} {n : ℕ} {l : List (List α)} (h : ∀ a ∈ l, a.length ≤ n) :
    l.flatten.length ≤ l.length * n := by
  rw [List.length_flatten]
  exact (List.sum_le_card_nsmul _ _ (by simpa using h)).trans (by simp)

namespace MultiStackInfo

open Keyed Tally

variable {cs : List MultiStackInfo} {t : MultiStackInfo} {φ : List Key → ℕ}

/-! ## The counts of a tree -/

theorem mem_forestCounts {p : List Key} {n : ℤ} (h : Represents cs φ) :
    (p, n) ∈ forestCounts cs ↔ p ≠ [] ∧ n = φ p ∧ φ p ≠ 0 := by
  rw [forestCounts_eq, List.mem_flatMap]
  induction p generalizing cs φ with
  | nil =>
    refine iff_of_false ?_ (by simp)
    rintro ⟨c, -, hmem⟩
    rw [pathCounts_eq] at hmem
    simp at hmem
  | cons k p ih =>
    have hmem (c : MultiStackInfo) : (k :: p, n) ∈ c.pathCounts ↔
        c.stack.key = k ∧ (p = [] ∧ n = c.N ∨ ∃ d ∈ c.children, (p, n) ∈ d.pathCounts) := by
      rw [pathCounts_eq, forestCounts_eq, List.mem_cons, List.mem_map]
      simp only [Prod.mk.injEq, List.cons.injEq, List.mem_flatMap, Prod.exists]
      constructor
      · rintro (⟨⟨rfl, rfl⟩, rfl⟩ | ⟨q, m, hd, ⟨rfl, rfl⟩, rfl⟩)
        · exact ⟨rfl, .inl ⟨rfl, rfl⟩⟩
        · exact ⟨rfl, .inr hd⟩
      · rintro ⟨rfl, ⟨rfl, rfl⟩ | hd⟩
        · exact .inl ⟨⟨rfl, rfl⟩, rfl⟩
        · exact .inr ⟨p, n, hd, ⟨rfl, rfl⟩, rfl⟩
    simp only [hmem]
    constructor
    · rintro ⟨c, hc, rfl, ⟨rfl, rfl⟩ | hd⟩
      · exact ⟨by simp, h.count hc⟩
      · exact ⟨by simp, ((ih (h.sub hc)).mp hd).2⟩
    · rintro ⟨-, hn, hφ⟩
      obtain ⟨c, hc, rfl⟩ := h.cover hφ
      refine ⟨c, hc, rfl, ?_⟩
      by_cases hp : p = []
      · subst hp
        exact .inl ⟨rfl, hn.trans (h.count hc).1.symm⟩
      · exact .inr ((ih (h.sub hc)).mpr ⟨hp, hn, hφ⟩)

theorem nodup_forestCounts (h : Represents cs φ) : ((forestCounts cs).map Prod.fst).Nodup := by
  induction cs using forest_induction generalizing φ with
  | nil => simp [forestCounts]
  | cons c cs ihc ihcs =>
    have hsub := h.sub (c := c) (by simp)
    rw [forestCounts, List.map_append, pathCounts_eq, List.map_cons, List.map_map]
    have hmap : (Prod.fst ∘ fun x : List Key × ℤ => (c.stack.key :: x.1, x.2)) =
        List.cons c.stack.key ∘ Prod.fst := rfl
    rw [hmap, ← List.map_map]
    refine List.nodup_append.mpr ⟨List.nodup_cons.mpr ⟨?_, ?_⟩, ihcs h.tail, ?_⟩
    · -- no way below a node is empty
      rw [List.mem_map]
      rintro ⟨p, hp, hpk⟩
      obtain ⟨⟨q, n⟩, hq, rfl⟩ := List.mem_map.mp hp
      exact ((mem_forestCounts hsub).mp hq).1 (List.cons.inj hpk).2
    · exact (ihc hsub).map fun p q hpq => (List.cons.inj hpq).2
    · -- the other trees have nothing that begins with the key of the first
      rintro p hp q hq rfl
      obtain ⟨⟨q, n⟩, hqn, rfl⟩ := List.mem_map.mp hq
      obtain ⟨-, -, hne⟩ := (mem_forestCounts h.tail).mp hqn
      have hhead : q.head? = some c.stack.key := by
        rcases List.mem_cons.mp hp with hp | hp
        · exact congrArg List.head? hp
        · obtain ⟨p, -, hp⟩ := List.mem_map.mp hp
          exact (congrArg List.head? hp).symm
      exact hne (if_pos hhead)

/-- What a tree says, if its children have the counts `φ`: every way with a count is there
    once, with this count. -/
def Says (t : MultiStackInfo) (φ : List Key → ℕ) : Prop :=
  (t.pathCounts.map Prod.fst).Nodup ∧
    ∀ p n, p ≠ [] → ((StackInfo.init.key :: p, n) ∈ t.pathCounts ↔ n = φ p ∧ φ p ≠ 0)

theorem Represents.says (h : Represents t.children φ) (hroot : t.stack = .init) : Says t φ := by
  constructor
  · have hmap : (Prod.fst ∘ fun x : List Key × ℤ => (t.stack.key :: x.1, x.2)) =
        List.cons t.stack.key ∘ Prod.fst := rfl
    rw [pathCounts_eq, List.map_cons, List.map_map, hmap, ← List.map_map]
    refine List.nodup_cons.mpr ⟨?_, (nodup_forestCounts h).map fun p q hpq => (List.cons.inj hpq).2⟩
    rw [List.mem_map]
    rintro ⟨p, hp, hpk⟩
    obtain ⟨⟨q, n⟩, hq, rfl⟩ := List.mem_map.mp hp
    exact ((mem_forestCounts h).mp hq).1 (List.cons.inj hpk).2
  · intro p n hp
    have hiff := mem_forestCounts (p := p) (n := n) h
    rw [pathCounts_eq, hroot, List.mem_cons, List.mem_map]
    constructor
    · rintro (heq | ⟨⟨q, m⟩, hq, heq⟩)
      · exact absurd (List.cons.inj (Prod.ext_iff.mp heq).1).2 hp
      · obtain ⟨hpath, rfl⟩ := Prod.ext_iff.mp heq
        obtain rfl := (List.cons.inj hpath).2
        exact ((mem_forestCounts h).mp hq).2
    · rintro ⟨hn, hφ⟩
      exact .inr ⟨(p, n), hiff.mpr ⟨hp, hn, hφ⟩, rfl⟩

/-! ## The size of a tree -/

theorem nodes_upsert_le {m : MultiStackInfo → Bool} {g : MultiStackInfo → MultiStackInfo}
    {new : MultiStackInfo} {k : ℕ} (hg : ∀ c ∈ cs, nodes (g c).children ≤ nodes c.children + k)
    (hnew : 1 + nodes new.children ≤ k) : nodes (upsert m g new cs) ≤ nodes cs + k := by
  induction cs with
  | nil =>
    rw [upsert, nodes_cons, nodes_nil]
    omega
  | cons c cs ih =>
    have hc := hg c (by simp)
    have hcs := ih fun d hd => hg d (by simp [hd])
    rw [upsert, nodes_cons]
    split_ifs
    · rw [nodes_cons]
      omega
    · rw [nodes_cons]
      omega

theorem nodes_insertWord_le (w : List StackInfo) (cs : List MultiStackInfo) :
    nodes (insertWord w cs) ≤ nodes cs + w.length := by
  induction w generalizing cs with
  | nil => exact le_rfl
  | cons f w ih =>
    rw [insertWord, List.length_cons]
    refine nodes_upsert_le (fun c _ => ?_) ?_
    · have hc := ih c.children
      show nodes (insertWord w c.children) ≤ _
      omega
    · have hnil := ih []
      rw [nodes_nil] at hnil
      show 1 + nodes (insertWord w []) ≤ _
      omega

theorem nodes_forestOf_le (S : List (List StackInfo)) : nodes (forestOf S) ≤ S.flatten.length := by
  induction S using List.reverseRecOn with
  | nil => exact le_rfl
  | append_singleton S s ih =>
    have hs := nodes_insertWord_le s.reverse (forestOf S)
    rw [List.length_reverse] at hs
    rw [forestOf_append_singleton, List.flatten_append, List.length_append,
      List.flatten_singleton]
    omega

/-- A node of a represented forest has a count. -/
theorem Represents.exists_count {n : MultiStackInfo} (h : Represents cs φ) (hn : n ∈ preorder cs) :
    ∃ p, n.N = φ p := by
  induction h with
  | intro _ _ count _ ih =>
    obtain ⟨c, hc, rfl | hn⟩ := mem_preorder.mp hn
    · exact ⟨_, (count _ hc).1⟩
    · obtain ⟨p, hp⟩ := ih c hc hn
      exact ⟨_, hp⟩

theorem length_le_nodes (cs : List MultiStackInfo) : cs.length ≤ nodes cs := by
  induction cs with
  | nil => exact le_rfl
  | cons c cs ih =>
    rw [nodes_cons, List.length_cons]
    omega

theorem nodes_children_le {n : MultiStackInfo} (hn : n ∈ preorder cs) :
    nodes n.children ≤ nodes cs := by
  induction cs using forest_induction with
  | nil => simp [preorder] at hn
  | cons c cs ihc ihcs =>
    rw [preorder_cons, List.mem_cons, List.mem_append] at hn
    rw [nodes_cons]
    rcases hn with rfl | hn | hn
    · omega
    · have hle := ihc hn
      omega
    · have hle := ihcs hn
      omega

/-- The tree of call stacks that are not too many can be packed. -/
theorem fits_multiStackOf {S : List (List StackInfo)}
    (hS : StackInfo.OneProcess {f | ∃ s ∈ S, f ∈ s}) (hlength : S.length < 2 ^ 31)
    (hflat : S.flatten.length < 2 ^ 31) : Fits (multiStackOf S) := by
  have hnodes := nodes_forestOf_le S
  have hrep := represents_forestOf hS fun s hs f hf => ⟨s, hs, hf⟩
  intro n hn
  rw [multiStackOf_children] at hn
  rcases List.mem_cons.mp hn with rfl | hn
  · have hchildren := length_le_nodes (forestOf S)
    rw [multiStackOf_N, multiStackOf_children]
    exact ⟨⟨by omega, by exact_mod_cast hlength⟩, by omega⟩
  · obtain ⟨p, hp⟩ := hrep.exists_count hn
    have hcount : tally (S.map word) p ≤ S.length :=
      List.countP_le_length.trans (List.length_map _).le
    have hchildren := (length_le_nodes n.children).trans (nodes_children_le hn)
    exact ⟨⟨by omega, by omega⟩, by omega⟩

end MultiStackInfo

namespace Rank

variable {τ : Type} {R : Rank τ} {S : List (List StackInfo)} {t : MultiStackInfo}

theorem length_backtraceAll_le (R : Rank τ) : R.backtraceAll.length ≤ 1024 := by
  rw [backtraceAll, List.length_map, registeredThreads, StaticVector.length_toList]
  exact R.registry.size_le

theorem length_flatten_backtraceAll_le (R : Rank τ) :
    R.backtraceAll.flatten.length ≤ 1024000 := by
  have hflat : R.backtraceAll.flatten.length ≤ R.backtraceAll.length * 1000 := by
    refine length_flatten_le fun tmp htmp => ?_
    obtain ⟨tid, -, rfl⟩ := List.mem_map.mp htmp
    exact (R.backtrace tid).length_le
  have hlength := R.length_backtraceAll_le
  omega

/-- There is a position for every address. -/
theorem addresses_fit (R : Rank τ) : R.backtraceAll.flatten.eraseDups.length ≤ 2147483648 := by
  have hle := R.length_flatten_backtraceAll_le
  have hdups : R.backtraceAll.flatten.eraseDups.length ≤ R.backtraceAll.flatten.length :=
    ((nodup_eraseDups _).subperm fun _ => List.mem_eraseDups.mp).length_le
  omega

theorem getAllCallStacks_eq_some : R.getAllCallStacks = some t ↔
    ∃ S, R.callStacks = some S ∧ t = MultiStackInfo.multiStackOf S := by
  unfold getAllCallStacks generateMultiStack callStacks
  rw [Option.bind_eq_bind, Option.bind_eq_some_iff]
  simp only [Option.some.injEq, @eq_comm _ t]

theorem oneProcess_callStacks (h : R.callStacks = some S) :
    StackInfo.OneProcess {f | ∃ s ∈ S, f ∈ s} := (generateStacks_frames R.addresses_fit h).2

theorem address_callStacks (h : R.callStacks = some S) :
    S.map (List.map StackInfo.address) = R.backtraceAll :=
  (generateStacks_frames R.addresses_fit h).1

theorem length_callStacks (h : R.callStacks = some S) : S.length = R.registry.d_size := by
  rw [← List.length_map (f := List.map StackInfo.address), address_callStacks h, backtraceAll,
    List.length_map, registeredThreads, StaticVector.length_toList]

theorem fits_getAllCallStacks (h : R.getAllCallStacks = some t) : MultiStackInfo.Fits t := by
  obtain ⟨S, hS, rfl⟩ := getAllCallStacks_eq_some.mp h
  have haddress := address_callStacks hS
  have hlength : S.length = R.backtraceAll.length := by rw [← haddress, List.length_map]
  have hflat : S.flatten.length = R.backtraceAll.flatten.length := by
    rw [← haddress, ← List.map_flatten, List.length_map]
  have hle := R.length_backtraceAll_le
  have hle' := R.length_flatten_backtraceAll_le
  exact MultiStackInfo.fits_multiStackOf (oneProcess_callStacks hS) (by omega) (by omega)

end Rank

namespace MultiStackInfo

open Buffer Tally

/-- `unpack` gives back what `pack` wrote. -/
theorem unpackPacked_of_fits {t : MultiStackInfo} (h : Fits t) (u : MultiStackInfo) :
    unpackPacked t u = some t := by
  have hpack : t.pack (List.replicate t.size 0) 0 = some (t.image, t.image.length) := by
    have h := t.writes_pack [] (List.replicate t.size 0) [] (by simp [length_image])
    simpa using h
  have hlies : LiesAt t.image t.image 0 := ⟨[], [], by simp, rfl⟩
  have hheight : t.height < t.image.length + 1 := by
    have hle := forestHeight_le_length t.children
    rw [height_eq, image_eq]
    simp only [List.length_append]
    omega
  have hread : u.unpack t.image 0 = some (t, 0 + t.image.length) :=
    unpackFuel_of_liesAt hheight h u hlies
  unfold unpackPacked
  simp only [hpack, hread, Option.bind_eq_bind, Option.bind_some]

theorem mapM_unpackPacked {ts : List MultiStackInfo} (h : ∀ t ∈ ts, Fits t) (u : MultiStackInfo) :
    ts.mapM (fun t => unpackPacked t u) = some ts := by
  rw [mapM_eq_some (g := id) fun t ht => unpackPacked_of_fits (h t ht) u, List.map_id]

variable {τ : Type}

/-- Whatever the process, its registered threads and their call stacks are, the tree of
    `getAllCallStacks` counts all registered threads at its root; it has each way that the
    call stack of some thread begins with, outermost frame first, exactly once, and counts
    there the threads whose call stacks begin with it; and `unpack` reads it back from
    what `pack` writes. -/
theorem getAllCallStacks_counts {R : Rank τ} {t : MultiStackInfo}
    (h : R.getAllCallStacks = some t) :
    ∃ S, R.callStacks = some S ∧ S.map (List.map StackInfo.address) = R.backtraceAll ∧
      t.N = R.registry.d_size ∧ Says t (tally (S.map word)) ∧
      ∀ u, unpackPacked t u = some t := by
  obtain ⟨S, hS, rfl⟩ := Rank.getAllCallStacks_eq_some.mp h
  have hrep := represents_forestOf (Rank.oneProcess_callStacks hS) fun s hs f hf => ⟨s, hs, hf⟩
  rw [← multiStackOf_children] at hrep
  refine ⟨S, hS, Rank.address_callStacks hS, ?_, hrep.says (multiStackOf_stack S),
    unpackPacked_of_fits (Rank.fits_getAllCallStacks h)⟩
  rw [multiStackOf_N, Rank.length_callStacks hS]

/-- Two threads, one of them in a call. -/
def twoRegistered : Rank UInt64 where
  process := stripped
  fuel := 0
  registry := Registry.registerThread (Registry.registerThread StaticVector.init 7) 8
  backtrace tid := if tid = 7 then ⟨[1, 2], by decide⟩ else ⟨[2], by decide⟩

theorem getAllCallStacks_counts_two :
    ∃ t, twoRegistered.getAllCallStacks = some t ∧ t.N = 2 ∧ unpackPacked t t = some t := by
  obtain ⟨t, ht⟩ : ∃ t, twoRegistered.getAllCallStacks = some t :=
    Option.isSome_iff_exists.mp (by decide +kernel)
  obtain ⟨-, -, -, hN, -, hpack⟩ := getAllCallStacks_counts ht
  exact ⟨t, ht, hN, hpack t⟩

/-! ## All ranks -/

variable {own : Rank τ} {others : List (Rank τ)} {t : MultiStackInfo} {ts : List MultiStackInfo}

theorem mapM_getAllCallStacks (h : others.mapM Rank.getAllCallStacks = some ts) :
    ∃ Ts, others.mapM Rank.callStacks = some Ts ∧ ts = Ts.map multiStackOf ∧
      (∀ T ∈ Ts, StackInfo.OneProcess {f | ∃ s ∈ T, f ∈ s}) ∧
      Ts.map List.length = others.map fun R => R.registry.d_size := by
  have hpairs := forall₂_of_mapM h
  clear h
  induction hpairs with
  | nil => exact ⟨[], rfl, rfl, by simp, rfl⟩
  | cons hR _ ih =>
    obtain ⟨S, hS, rfl⟩ := Rank.getAllCallStacks_eq_some.mp hR
    obtain ⟨Ts, hTs, rfl, hone, hlength⟩ := ih
    refine ⟨S :: Ts, ?_, rfl, ?_, ?_⟩
    · rw [List.mapM_cons, hS, hTs]
      rfl
    · exact List.forall_mem_cons.mpr ⟨Rank.oneProcess_callStacks hS, hone⟩
    · rw [List.map_cons, List.map_cons, hlength, Rank.length_callStacks hS]

/-- The trees of other ranks, merged into the tree of this one. -/
theorem says_getGlobalCallStacks (ht : own.getAllCallStacks = some t)
    (hts : others.mapM Rank.getAllCallStacks = some ts) (hclash : NoClash (t :: ts)) :
    ∃ S Ts, own.callStacks = some S ∧ others.mapM Rank.callStacks = some Ts ∧
      (getGlobalCallStacks t ts).N =
        own.registry.d_size + (others.map fun R => (R.registry.d_size : ℤ)).sum ∧
      Says (getGlobalCallStacks t ts) (tally ((S ++ Ts.flatten).map word)) := by
  obtain ⟨S, hS, rfl⟩ := Rank.getAllCallStacks_eq_some.mp ht
  obtain ⟨Ts, hTs, rfl, hone, hlength⟩ := mapM_getAllCallStacks hts
  refine ⟨S, Ts, hS, hTs, ?_, ?_⟩
  · have hN : (Ts.map multiStackOf).map N =
        (others.map fun R => R.registry.d_size).map ((↑) : ℕ → ℤ) := by
      rw [← hlength, List.map_map, List.map_map]
      exact List.map_congr_left fun T _ => multiStackOf_N T
    rw [getGlobalCallStacks, add_N, getRemoteCallStacks_N, multiStackOf_N,
      Rank.length_callStacks hS, hN, List.map_map]
    rfl
  · have hrep := represents_getGlobalCallStacks (Rank.oneProcess_callStacks hS) hone hclash
    have htally : tally (S.map word) + tallyOf Ts = tally ((S ++ Ts.flatten).map word) := by
      rw [List.map_append, tally_append]
      rfl
    rw [htally] at hrep
    refine hrep.says ?_
    rw [getGlobalCallStacks, add_stack, multiStackOf_stack]

/-- Whatever the processes of the ranks are, the trees of the other ranks, packed and
    unpacked, and merged into the tree of this one: the root counts the threads of all
    ranks, and each way that the call stack of some thread of some rank begins with is
    there exactly once and counts these threads. -/
theorem getGlobalCallStacks_counts (ht : own.getAllCallStacks = some t)
    (hts : others.mapM Rank.getAllCallStacks = some ts) (hclash : NoClash (t :: ts)) :
    ∃ S Ts us, own.callStacks = some S ∧ others.mapM Rank.callStacks = some Ts ∧
      ts.mapM (fun t => unpackPacked t .init) = some us ∧
      (getGlobalCallStacks t us).N =
        own.registry.d_size + (others.map fun R => (R.registry.d_size : ℤ)).sum ∧
      Says (getGlobalCallStacks t us) (tally ((S ++ Ts.flatten).map word)) := by
  have hfits : ∀ t ∈ ts, Fits t := forall_of_mapM (fun _ _ => Rank.fits_getAllCallStacks) hts
  obtain ⟨S, Ts, hS, hTs, hN, hsays⟩ := says_getGlobalCallStacks ht hts hclash
  exact ⟨S, Ts, ts, hS, hTs, mapM_unpackPacked hfits .init, hN, hsays⟩

/-- Trees whose frames are those of one process. -/
theorem noClash_of_oneProcess {F : Set StackInfo} (hF : StackInfo.OneProcess F)
    (h : ∀ t ∈ ts, FramesIn F t.children) : NoClash ts := by
  intro t ht t' ht' p f g hf hg hfg
  have hf := framesAt_const (h t ht) p f hf
  have hg := framesAt_const (h t' ht') p g hg
  exact Prod.ext_iff.mpr (hF f hf g hg hfg)

/-- Two ranks in the same state, at the same addresses. -/
theorem noClash_same (h : own.getAllCallStacks = some t) : NoClash [t, t] := by
  obtain ⟨S, hS, rfl⟩ := Rank.getAllCallStacks_eq_some.mp h
  refine noClash_of_oneProcess (Rank.oneProcess_callStacks hS) ?_
  have hframes : FramesIn {f | ∃ s ∈ S, f ∈ s} (forestOf S) :=
    framesIn_forestOf fun s hs f hf => ⟨s, hs, hf⟩
  simpa using hframes

theorem getGlobalCallStacks_counts_two :
    ∃ t us, twoRegistered.getAllCallStacks = some t ∧
      [t].mapM (fun t => unpackPacked t .init) = some us ∧ (getGlobalCallStacks t us).N = 4 := by
  obtain ⟨t, ht⟩ : ∃ t, twoRegistered.getAllCallStacks = some t :=
    Option.isSome_iff_exists.mp (by decide +kernel)
  have hts : [twoRegistered].mapM Rank.getAllCallStacks = some [t] := by
    rw [List.mapM_cons, ht]
    rfl
  obtain ⟨-, -, us, -, -, hus, hN, -⟩ := getGlobalCallStacks_counts ht hts (noClash_same ht)
  exact ⟨t, us, ht, hus, hN⟩

end MultiStackInfo

end StackTrace
