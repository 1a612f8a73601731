import Lkb.RedBlackTree.History
import Lkb.Foundations.SearchPath
import Mathlib.Data.List.Nodup

/-!
# What a search costs

The insertions never rebalance the tree, so the order of the insertions decides which nodes a
search visits. `search_visits` says which: the nodes that were inserted before every node whose
data lies between theirs and the data searched for. Where the data only ever increases, as in
`start`, no insertion separates a node from the nodes after it, and the search goes through every
node before the one it is for (`search_visits_of_increasing`): the tree is a linked list. This is
what `start` does (`start_rounds`).
-/

namespace Lkb.RedBlackTree

open Loop PointerTree SearchTree BinaryTree

variable {s : State} {t : BinaryTree Addr} {p : Option Addr} {mem : Addr → Tree} {ts : List Addr}

/-- The heads of the rounds of a search that visits the given nodes: one that finds nothing goes
round once more, at a null pointer. -/
def heads (visited : List Addr) (found : Bool) : List (Option Addr) :=
  visited.map some ++ if found then [] else [none]

/-- The loop of `search` goes round once at each node of the descent. -/
theorem searchLoop_rounds (v : Int32) (h : Spans s.kids p t) :
    Rounds (searchBody s v) p (heads (path s.data v t) (lookup s.data v t).isSome)
      (lookup s.data v t) := by
  induction t generalizing p with
  | nil =>
    obtain rfl : p = none := h
    exact .leave rfl
  | node c l r ihl ihr =>
    obtain ⟨rfl, hl, hr⟩ := h
    rcases lt_trichotomy v (s.data c) with hv | hv | hv
    · rw [lookup_node_of_lt hv, path_node_of_lt hv]
      exact .round (if_pos hv) (ihl hl)
    · rw [lookup_node_of_eq hv, path_node_of_eq hv]
      refine .leave ?_
      rw [searchBody, if_neg hv.not_lt, if_neg hv.not_gt]
    · rw [lookup_node_of_gt hv, path_node_of_gt hv]
      refine .round ?_ (ihr hr)
      rw [searchBody, if_neg hv.not_gt, if_pos hv]

theorem treeOf_eq_foldl (data : Addr → Int32) (t : BinaryTree Addr) (ts : List Addr) :
    treeOf data t ts = ts.foldl (fun t x => insertLeaf data x t) t := by
  induction ts generalizing t with
  | nil => rfl
  | cons x ts ih => exact ih (insertLeaf data x t)

theorem insertAll_rounds (s₀ : State) (hroot : s₀.rbNode = none) (hts : ts.Nodup)
    (hnull : Unlinked s₀.mem ts) :
    ∃ rs s, Returns (fun n => insertAll n s₀ ts) (rs, s) ∧
      ∀ v, Rounds (searchBody s v) s.rbNode
        (heads (path s₀.data v (grow s₀.data ts)) (ts.find? fun x => s₀.data x = v).isSome)
        (ts.find? fun x => s₀.data x = v) := by
  have hempty : Holds s₀ nil := ⟨hroot, List.Pairwise.nil⟩
  obtain ⟨s, hret, hholds, hdata, -, -⟩ :=
    insertAll_returns hempty hts (fun _ _ => by simp) hnull.kids
  refine ⟨_, s, hret, fun v => ?_⟩
  have h := searchLoop_rounds v hholds.spans
  rw [hdata, lookup_treeOf, treeOf_eq_foldl] at h
  exact h

/-- **The nodes that a search visits**, after any sequence of insertions: those that were inserted
before every node whose data lies between theirs and the data searched for, in the order of their
insertion. -/
theorem search_visits (mem : Addr → Tree) (ts : List Addr) (hts : ts.Nodup)
    (hnull : Unlinked mem ts) :
    ∃ rs s, Returns (fun n => insertAll n (rbRoot mem) ts) (rs, s) ∧
      ∀ v, ∃ visited : List Addr, visited.Sublist ts ∧
        (∀ i x, ts[i]? = some x →
          (x ∈ visited ↔ ∀ y ∈ ts.take i, (mem y).data ∉ Set.uIcc (mem x).data v)) ∧
        Rounds (searchBody s v) s.rbNode
          (heads visited (ts.find? fun x => (mem x).data = v).isSome)
          (ts.find? fun x => (mem x).data = v) := by
  obtain ⟨rs, s, hret, hrounds⟩ := insertAll_rounds (rbRoot mem) rfl hts hnull
  exact ⟨rs, s, hret, fun v =>
    ⟨_, path_grow_sublist _ v ts, fun i x hx => mem_path_grow hts hx, hrounds v⟩⟩

theorem search_visits_sample :
    ∃ rs s, Returns (fun n => insertAll n (rbRoot sampleMem) [1, 2]) (rs, s) ∧
      ∀ v, ∃ visited : List Addr, visited.Sublist [1, 2] ∧
        (∀ i x, [1, 2][i]? = some x →
          (x ∈ visited ↔ ∀ y ∈ [1, 2].take i, (sampleMem y).data ∉ Set.uIcc (sampleMem x).data v)) ∧
        Rounds (searchBody s v) s.rbNode
          (heads visited ([1, 2].find? fun x => (sampleMem x).data = v).isSome)
          ([1, 2].find? fun x => (sampleMem x).data = v) :=
  search_visits sampleMem [1, 2] (by decide) (by decide)

/-- The nodes are inserted in the increasing order of their data. -/
def Increasing (mem : Addr → Tree) (ts : List Addr) : Prop :=
  ts.Pairwise fun x y => (mem x).data < (mem y).data

instance (ts : List Addr) : Decidable (Increasing mem ts) :=
  inferInstanceAs (Decidable (ts.Pairwise _))

theorem Increasing.nodup_data (h : Increasing mem ts) : (ts.map fun x => (mem x).data).Nodup :=
  List.pairwise_map.2 (List.Pairwise.imp (fun hxy => hxy.ne) h)

theorem Increasing.find?_eq {x : Addr} (h : Increasing mem ts) (hx : x ∈ ts) :
    ts.find? (fun y => (mem y).data = (mem x).data) = some x := by
  cases hy : ts.find? fun y => (mem y).data = (mem x).data with
  | none => simpa using List.find?_eq_none.1 hy x hx
  | some y =>
    have hdata : (mem y).data = (mem x).data := by simpa using List.find?_some hy
    rw [List.inj_on_of_nodup_map h.nodup_data (List.mem_of_find?_eq_some hy) hx hdata]

/-- The descent for the data of a node goes through the nodes up to it. -/
theorem Increasing.path_eq {i : ℕ} {x : Addr} (h : Increasing mem ts) (hx : ts[i]? = some x) :
    path (fun x => (mem x).data) (mem x).data (grow (fun x => (mem x).data) ts) =
      ts.take (i + 1) := by
  have htake : ts.take (i + 1) = ts.take i ++ [x] := by
    rw [List.take_add_one, hx, Option.toList_some]
  have hpre : Increasing mem (ts.take i ++ [x]) := htake ▸ h.sublist (List.take_sublist _ _)
  have hle : ∀ y ∈ ts.take i ++ [x], (mem y).data ≤ (mem x).data := by
    intro y hy
    rcases List.mem_append.1 hy with hy | hy
    · exact ((List.pairwise_append.1 hpre).2.2 y hy x (by simp)).le
    · rw [List.mem_singleton.1 hy]
  -- up to `x`, a smaller node never comes between a later one and `x`
  have hpath : path (fun x => (mem x).data) (mem x).data
      (grow (fun x => (mem x).data) (ts.take (i + 1))) = ts.take (i + 1) := by
    rw [htake]
    refine path_grow_of_pairwise (List.Pairwise.imp_of_mem (fun {y z} _ hz hyz => ?_) hpre)
    exact sameWay_iff.2 (.inl ⟨hyz.trans_le (hle z hz), hyz⟩)
  have hmem : x ∈ path (fun x => (mem x).data) (mem x).data
      (grow (fun x => (mem x).data) (ts.take (i + 1))) := by
    rw [hpath, htake]
    simp
  have happ := path_grow_append hmem rfl (ts.drop (i + 1))
  rwa [List.take_append_drop, hpath] at happ

theorem Increasing.insertAll_rounds (s₀ : State) (hroot : s₀.rbNode = none)
    (hinc : Increasing s₀.mem ts) (hnull : Unlinked s₀.mem ts) :
    ∃ rs s, Returns (fun n => insertAll n s₀ ts) (rs, s) ∧
      ∀ i x, ts[i]? = some x →
        Rounds (searchBody s (s₀.data x)) s.rbNode ((ts.take (i + 1)).map some) (some x) := by
  obtain ⟨rs, s, hret, hrounds⟩ :=
    RedBlackTree.insertAll_rounds s₀ hroot (List.Nodup.of_map _ hinc.nodup_data) hnull
  refine ⟨rs, s, hret, fun i x hx => ?_⟩
  have h := hrounds (s₀.data x)
  have hfind : ts.find? (fun y => s₀.data y = s₀.data x) = some x :=
    hinc.find?_eq (List.mem_of_getElem? hx)
  have hpath : path s₀.data (s₀.data x) (grow s₀.data ts) = ts.take (i + 1) := hinc.path_eq hx
  rw [hfind, hpath] at h
  simpa [heads] using h

/-- **Nodes inserted in increasing order make a linked list**: the search for the `i`-th of them
goes through the nodes before it, one by one. -/
theorem search_visits_of_increasing (mem : Addr → Tree) (ts : List Addr) (hinc : Increasing mem ts)
    (hnull : Unlinked mem ts) :
    ∃ rs s, Returns (fun n => insertAll n (rbRoot mem) ts) (rs, s) ∧
      ∀ i x, ts[i]? = some x →
        Rounds (searchBody s (mem x).data) s.rbNode ((ts.take (i + 1)).map some) (some x) ∧
        ∀ n, search n s (mem x).data = if i < n then some (some x) else none := by
  obtain ⟨rs, s, hret, hrounds⟩ := Increasing.insertAll_rounds (rbRoot mem) rfl hinc hnull
  refine ⟨rs, s, hret, fun i x hx => ?_⟩
  have h : Rounds (searchBody s (mem x).data) s.rbNode ((ts.take (i + 1)).map some) (some x) :=
    hrounds i x hx
  refine ⟨h, fun n => ?_⟩
  have hlen : ((ts.take (i + 1)).map some).length = i + 1 := by
    have := (List.getElem?_eq_some_iff.1 hx).1
    simp
    omega
  rw [search, h.loop_eq, hlen]
  rfl

/-- Nodes whose data is their address. -/
def risingMem (a : Addr) : Tree := ⟨Int32.ofNat a, 0, none, none⟩

theorem search_visits_of_increasing_sample :
    ∃ rs s, Returns (fun n => insertAll n (rbRoot risingMem) [1, 2, 3]) (rs, s) ∧
      ∀ i x, [1, 2, 3][i]? = some x →
        Rounds (searchBody s (risingMem x).data) s.rbNode (([1, 2, 3].take (i + 1)).map some)
          (some x) ∧
        ∀ n, search n s (risingMem x).data = if i < n then some (some x) else none :=
  search_visits_of_increasing risingMem [1, 2, 3] (by decide) (by decide)

/-! ## What `start` sets up -/

section

variable {tree : ℕ → Addr} {n : ℕ}

/-- The nodes of the array after the first loop of `start`. -/
theorem setup_tree (htree : tree.Injective) (mem : Addr → Tree) {i : ℕ} (hi : i < n) :
    (setup tree mem n (tree i)).data = Int32.ofNat (i * 100) ∧
      (setup tree mem n (tree i)).rbLeft = none ∧ (setup tree mem n (tree i)).rbRight = none := by
  induction n with
  | zero => cases hi
  | succ n ih =>
    rw [setup]
    by_cases hin : i = n
    · rw [hin, Function.update_self]
      exact ⟨rfl, rfl, rfl⟩
    · rw [Function.update_of_ne (htree.ne hin)]
      exact ih (by omega)

theorem setup_unlinked (htree : tree.Injective) (mem : Addr → Tree) :
    Unlinked (setup tree mem n) ((List.range n).map tree) := by
  intro t ht
  obtain ⟨i, hi, rfl⟩ := List.mem_map.1 ht
  exact (setup_tree htree mem (List.mem_range.1 hi)).2

theorem setup_increasing (htree : tree.Injective) (mem : Addr → Tree) (hn : n ≤ element) :
    Increasing (setup tree mem n) ((List.range n).map tree) := by
  refine List.pairwise_map.2 (List.pairwise_lt_range.imp_of_mem fun {i j} hi hj hij => ?_)
  rw [List.mem_range] at hi hj
  rw [element] at hn
  rw [(setup_tree htree mem hi).1, (setup_tree htree mem hj).1,
    Int32.ofNat_lt_iff_lt (by omega) (by omega)]
  omega

/-- **The tree of `start`.** Wherever the array lies, all insertions of `start` return, and its
search for 200 goes through the first three nodes of the array. -/
theorem start_rounds (htree : tree.Injective) (mem : Addr → Tree) :
    ∃ rs s, Returns (fun n => insertAll n
        { (rbRoot mem).print .start with mem := setup tree mem element }
        ((List.range element).map tree)) (rs, s) ∧
      Rounds (searchBody s 200) s.rbNode [some (tree 0), some (tree 1), some (tree 2)]
        (some (tree 2)) := by
  obtain ⟨rs, s, hret, hrounds⟩ := Increasing.insertAll_rounds
    { (rbRoot mem).print .start with mem := setup tree mem element } rfl
    (setup_increasing htree mem (Nat.le_refl element)) (setup_unlinked htree mem)
  refine ⟨rs, s, hret, ?_⟩
  have hdata := (setup_tree htree mem (show 2 < element by decide)).1
  have h := hrounds 2 (tree 2) rfl
  rw [State.data, hdata] at h
  exact h

end

end Lkb.RedBlackTree
