import Mathlib.Data.List.Basic
import Mathlib.Data.List.Induction

/-!
# Hash trees

The tree behind a Merkle root. Levels are built by pairing neighbours and carrying an odd last
node up unchanged (`pairUp`); done on trees instead of digests the same construction keeps the
leaves (`leaves_pairUp`), and digests commute with it (`map_pairUp`). Two trees of one digest are
one tree, or a string hashed for the first and a different string hashed for the second have one
digest (`HashTree.digest_inj`): no assumption on the hash function is made, the colliding strings
are produced, and both are strings that were really hashed. Likewise a path of siblings of any
length that climbs from a leaf to the digest of a tree is the way up from a leaf of the tree, or
there is such a collision (`HashTree.mem_climbs_of_rise`); the ways up are built level by level, as
the tree is (`HashTree.climbsUnder_pairUp`).
-/

namespace Np2ptp.Lib

/-- One of the strings `xs` and another of the strings `ys` differ and have one digest. -/
def Collision {δ β : Type*} (hash : β → δ) (xs ys : List β) : Prop :=
  ∃ x ∈ xs, ∃ y ∈ ys, x ≠ y ∧ hash x = hash y

/-- A collision among some strings is one among more. -/
theorem Collision.mono {δ β : Type*} {hash : β → δ} {xs ys xs' ys' : List β}
    (h : Collision hash xs ys) (hx : xs ⊆ xs') (hy : ys ⊆ ys') : Collision hash xs' ys' := by
  obtain ⟨x, hxm, y, hym, hne, he⟩ := h
  exact ⟨x, hx hxm, y, hy hym, hne, he⟩

theorem Collision.symm {δ β : Type*} {hash : β → δ} {xs ys : List β} (h : Collision hash xs ys) :
    Collision hash ys xs := by
  obtain ⟨x, hx, y, hy, hne, he⟩ := h
  exact ⟨y, hy, x, hx, hne.symm, he.symm⟩

/-- Lists of one list of digests are one list, or collide. -/
theorem eq_or_collision_of_map_eq {δ β : Type*} {hash : β → δ} : ∀ {xs ys : List β},
    xs.map hash = ys.map hash → xs = ys ∨ Collision hash xs ys
  | [], [], _ => .inl rfl
  | [], _ :: _, h => by cases h
  | _ :: _, [], h => by cases h
  | x :: xs, y :: ys, h => by
    obtain ⟨hhead, htail⟩ := List.cons.inj h
    by_cases he : x = y
    · rcases eq_or_collision_of_map_eq htail with rfl | hc
      · exact .inl (by rw [he])
      · exact .inr (hc.mono (List.subset_cons_self _ _) (List.subset_cons_self _ _))
    · exact .inr ⟨x, List.mem_cons_self, y, List.mem_cons_self, he, hhead⟩

/-- One level up: neighbours are joined, an odd last node is carried. -/
def pairUp {τ : Type*} (node : τ → τ → τ) : List τ → List τ
  | a :: b :: t => node a b :: pairUp node t
  | l => l

section Levels

variable {τ υ : Type*} (node : τ → τ → τ)

theorem length_pairUp : ∀ l : List τ, (pairUp node l).length = (l.length + 1) / 2
  | [] => by simp [pairUp]
  | [_] => by simp [pairUp]
  | a :: b :: t => by
    simp only [pairUp, List.length_cons, length_pairUp t]
    omega

theorem pairUp_ne_nil : ∀ {l : List τ}, l ≠ [] → pairUp node l ≠ []
  | [], h => absurd rfl h
  | [_], _ => by simp [pairUp]
  | _ :: _ :: _, _ => by simp [pairUp]

/-- Pairing up commutes with a map that commutes with joining. -/
theorem map_pairUp {node' : υ → υ → υ} {f : τ → υ} (hf : ∀ a b, f (node a b) = node' (f a) (f b)) :
    ∀ l : List τ, (pairUp node l).map f = pairUp node' (l.map f)
  | [] => rfl
  | [_] => rfl
  | a :: b :: t => by
    simp only [pairUp, List.map_cons, hf, map_pairUp hf t]

/-- The node over an index: it and its neighbour joined, or it carried up. -/
theorem getElem?_pairUp : ∀ (l : List τ) (i : Nat),
    (pairUp node l)[i]? = match l[2 * i]?, l[2 * i + 1]? with
      | some a, some b => some (node a b)
      | o, _ => o
  | [], i => by simp [pairUp]
  | [a], 0 => rfl
  | [a], i + 1 => by simp [pairUp]
  | a :: b :: t, 0 => rfl
  | a :: b :: t, i + 1 => by
    simp only [pairUp, List.getElem?_cons_succ, getElem?_pairUp t i, Nat.mul_add, Nat.mul_one]

/-- All levels, the given one first, while a level has more than one node. The first argument
bounds the number of levels. -/
def levelsFrom : Nat → List τ → List (List τ)
  | 0, l => [l]
  | n + 1, l => if 1 < l.length then l :: levelsFrom n (pairUp node l) else [l]

/-- The given level comes first. -/
theorem exists_levelsFrom (n : Nat) (l : List τ) : ∃ rest, levelsFrom node n l = l :: rest := by
  cases n with
  | zero => exact ⟨[], rfl⟩
  | succ n =>
    unfold levelsFrom
    split
    · exact ⟨_, rfl⟩
    · exact ⟨[], rfl⟩

/-- The last level. -/
def topFrom : Nat → List τ → List τ
  | 0, l => l
  | n + 1, l => if 1 < l.length then topFrom n (pairUp node l) else l

theorem getLast?_levelsFrom :
    ∀ (n : Nat) (l : List τ), (levelsFrom node n l).getLast? = some (topFrom node n l)
  | 0, _ => rfl
  | n + 1, l => by
    unfold levelsFrom topFrom
    split
    · rw [List.getLast?_cons, getLast?_levelsFrom n]
      rfl
    · rfl

/-- As many levels as the first has nodes are enough to reach a single node. -/
theorem topFrom_length : ∀ {n : Nat} {l : List τ}, l ≠ [] → l.length ≤ n →
    (topFrom node n l).length = 1
  | 0, l, hl, hn => absurd (List.length_eq_zero_iff.mp (Nat.le_zero.mp hn)) hl
  | n + 1, l, hl, hn => by
    unfold topFrom
    have hpos := List.length_pos_iff.mpr hl
    split
    · next h =>
      refine topFrom_length (pairUp_ne_nil node hl) ?_
      rw [length_pairUp]
      omega
    · omega

/-- Any bound from the number of nodes on gives the same levels: the bound does not cut them off. -/
theorem levelsFrom_of_le {n m : Nat} {l : List τ} (hn : l.length ≤ n) (hm : l.length ≤ m) :
    levelsFrom node n l = levelsFrom node m l := by
  induction n generalizing m l with
  | zero =>
    obtain rfl := List.length_eq_zero_iff.mp (Nat.le_zero.mp hn)
    cases m <;> rfl
  | succ n ih =>
    cases m with
    | zero =>
      obtain rfl := List.length_eq_zero_iff.mp (Nat.le_zero.mp hm)
      rfl
    | succ m =>
      unfold levelsFrom
      split
      · next h =>
        have hlen := length_pairUp node l
        rw [ih (m := m) (by omega) (by omega)]
      · rfl

theorem map_topFrom {g : υ → υ → υ} {f : τ → υ}
    (hf : ∀ a b, f (node a b) = g (f a) (f b)) :
    ∀ (n : Nat) (l : List τ), (topFrom node n l).map f = topFrom g n (l.map f)
  | 0, _ => rfl
  | n + 1, l => by
    unfold topFrom
    rw [List.length_map]
    split
    · rw [map_topFrom hf n, map_pairUp node hf]
    · rfl

end Levels

/-! ## Trees -/

/-- A binary tree over leaves. -/
inductive HashTree (α : Type*) where
  | leaf (a : α)
  | node (l r : HashTree α)

namespace HashTree

variable {α δ β : Type*}

/-- The leaves, left to right. -/
def leaves : HashTree α → List α
  | leaf a => [a]
  | node l r => l.leaves ++ r.leaves

/-- Joining neighbours keeps the leaves and their order. -/
theorem leaves_pairUp : ∀ l : List (HashTree α),
    (pairUp node l).flatMap leaves = l.flatMap leaves
  | [] => rfl
  | [_] => rfl
  | a :: b :: t => by
    simp only [pairUp, List.flatMap_cons, leaves, leaves_pairUp t, List.append_assoc]

theorem leaves_topFrom : ∀ (n : Nat) (l : List (HashTree α)),
    (topFrom node n l).flatMap leaves = l.flatMap leaves
  | 0, _ => rfl
  | n + 1, l => by
    unfold topFrom
    split
    · rw [leaves_topFrom n, leaves_pairUp]
    · rfl

/-- How the strings that are hashed are made: of a leaf, and of two digests. A leaf's string is
none of a node's, and each determines what it was made of. -/
structure Encoding (α δ β : Type*) where
  leaf : α → β
  node : δ → δ → β
  leaf_inj : ∀ a b, leaf a = leaf b → a = b
  node_inj : ∀ a b c d, node a b = node c d → a = c ∧ b = d
  leaf_ne_node : ∀ a b c, leaf a ≠ node b c

variable (E : Encoding α δ β) (hash : β → δ)

/-- The digest of a tree. -/
def digest : HashTree α → δ
  | leaf a => hash (E.leaf a)
  | node l r => hash (E.node l.digest r.digest)

/-- The strings hashed on the way to the digest of a tree. -/
def preimages : HashTree α → List β
  | leaf a => [E.leaf a]
  | node l r => E.node (l.digest E hash) (r.digest E hash) :: l.preimages ++ r.preimages

/-- A digest determines its tree, or two different strings that were hashed have one digest. -/
theorem digest_inj : ∀ s t : HashTree α, s.digest E hash = t.digest E hash →
    s = t ∨ Collision hash (s.preimages E hash) (t.preimages E hash)
  | leaf a, leaf b, h => by
    by_cases he : E.leaf a = E.leaf b
    · exact .inl (congrArg leaf (E.leaf_inj a b he))
    · exact .inr ⟨_, List.mem_cons_self, _, List.mem_cons_self, he, h⟩
  | leaf a, node l r, h =>
    .inr ⟨_, List.mem_cons_self, _, List.mem_cons_self, E.leaf_ne_node a _ _, h⟩
  | node l r, leaf b, h =>
    .inr ⟨_, List.mem_cons_self, _, List.mem_cons_self, (E.leaf_ne_node b _ _).symm, h⟩
  | node l r, node l' r', h => by
    by_cases he : E.node (l.digest E hash) (r.digest E hash) =
        E.node (l'.digest E hash) (r'.digest E hash)
    · obtain ⟨hl, hr⟩ := E.node_inj _ _ _ _ he
      rcases digest_inj l l' hl with rfl | hc
      · rcases digest_inj r r' hr with rfl | hc
        · exact .inl rfl
        · exact .inr (hc.mono (by simp [preimages]) (by simp [preimages]))
      · exact .inr (hc.mono (by simp [preimages]) (by simp [preimages]))
    · exact .inr ⟨_, List.mem_cons_self, _, List.mem_cons_self, he, h⟩

/-! ## The strings of a level -/

/-- The strings hashed for the level over this one: one for each pair of neighbours. -/
def pairStrings (E : Encoding α δ β) : List δ → List β
  | a :: b :: t => E.node a b :: pairStrings E t
  | _ => []

theorem preimages_pairUp : ∀ ts : List (HashTree α),
    (pairUp node ts).flatMap (preimages E hash) ⊆
      ts.flatMap (preimages E hash) ++ pairStrings E (ts.map (digest E hash))
  | [] => by simp [pairUp]
  | [_] => by simp [pairUp]
  | a :: b :: t => by
    have ih := preimages_pairUp t
    intro x hx
    simp only [pairUp, List.flatMap_cons, preimages, List.cons_append, List.mem_cons,
      List.mem_append, pairStrings, List.map_cons] at hx ⊢
    rcases hx with rfl | (hx | hx) | hx
    · exact .inr (.inl rfl)
    · exact .inl (.inl hx)
    · exact .inl (.inr (.inl hx))
    · rcases List.mem_append.mp (ih hx) with h | h
      · exact .inl (.inr (.inr h))
      · exact .inr (.inr h)

/-- Every string of the tree at the top is one of the trees at the bottom, or one of a level. -/
theorem preimages_topFrom : ∀ (n : Nat) (ts : List (HashTree α)),
    (topFrom node n ts).flatMap (preimages E hash) ⊆ ts.flatMap (preimages E hash) ++
      (levelsFrom (fun a b => hash (E.node a b)) n (ts.map (digest E hash))).flatMap (pairStrings E)
  | 0, _ => List.subset_append_left _ _
  | n + 1, ts => by
    unfold topFrom levelsFrom
    rw [List.length_map]
    split
    · have hmap : (pairUp node ts).map (digest E hash) =
          pairUp (fun a b => hash (E.node a b)) (ts.map (digest E hash)) :=
        map_pairUp node (fun _ _ => rfl) ts
      have ih := preimages_topFrom n (pairUp node ts)
      have hpair := preimages_pairUp E hash ts
      intro x hx
      rw [List.flatMap_cons, ← hmap]
      rcases List.mem_append.mp (ih hx) with h | h
      · rcases List.mem_append.mp (hpair h) with h | h
        · exact List.mem_append_left _ h
        · exact List.mem_append_right _ (List.mem_append_left _ h)
      · exact List.mem_append_right _ (List.mem_append_right _ h)
    · exact List.subset_append_left _ _

/-! ## Climbing from a leaf -/

/-- The string hashed for one step up: the sibling stands left or right. -/
def riseString (E : Encoding α δ β) (acc : δ) (step : Bool × δ) : β :=
  if step.1 then E.node step.2 acc else E.node acc step.2

/-- One step up. -/
def rise (acc : δ) (step : Bool × δ) : δ := hash (riseString E acc step)

/-- The strings hashed on the way up. -/
def riseStrings : δ → List (Bool × δ) → List β
  | _, [] => []
  | acc, step :: steps => riseString E acc step :: riseStrings (rise E hash acc step) steps

theorem riseStrings_concat (acc : δ) (steps : List (Bool × δ)) (step : Bool × δ) :
    riseStrings E hash acc (steps ++ [step]) = riseStrings E hash acc steps ++
      [riseString E (steps.foldl (rise E hash) acc) step] := by
  induction steps generalizing acc with
  | nil => rfl
  | cons s steps ih => simp only [List.cons_append, riseStrings, List.foldl_cons, ih]

/-- A step up makes the string of a node, whichever side the sibling is on. -/
theorem exists_riseString (acc : δ) (step : Bool × δ) :
    ∃ l r, riseString E acc step = E.node l r := by
  unfold riseString
  split
  · exact ⟨_, _, rfl⟩
  · exact ⟨_, _, rfl⟩

/-- What is reached has been hashed from a leaf's or a node's string. -/
theorem exists_string_of_rise (a : α) (steps : List (Bool × δ)) :
    ∃ x ∈ E.leaf a :: riseStrings E hash (hash (E.leaf a)) steps,
      hash x = steps.foldl (rise E hash) (hash (E.leaf a)) ∧
      (x = E.leaf a ∨ ∃ l r, x = E.node l r) := by
  rcases List.eq_nil_or_concat steps with rfl | ⟨steps, step, rfl⟩
  · exact ⟨_, List.mem_cons_self, rfl, .inl rfl⟩
  · rw [List.concat_eq_append, riseStrings_concat, List.foldl_append]
    exact ⟨_, by simp, rfl, .inr (exists_riseString E _ step)⟩

/-- The leaves with their siblings on the way up, left to right. -/
def climbs : HashTree α → List (α × List (Bool × δ))
  | leaf a => [(a, [])]
  | node l r =>
    l.climbs.map (fun c => (c.1, c.2 ++ [(false, r.digest E hash)])) ++
      r.climbs.map fun c => (c.1, c.2 ++ [(true, l.digest E hash)])

/-- A climb that reaches the digest of a tree began at one of its leaves and met its siblings, or a
string hashed on the way and another hashed for the tree have one digest. -/
theorem mem_climbs_of_rise (a : α) (steps : List (Bool × δ)) : ∀ t : HashTree α,
    steps.foldl (rise E hash) (hash (E.leaf a)) = t.digest E hash → (a, steps) ∈ t.climbs E hash ∨
      Collision hash (E.leaf a :: riseStrings E hash (hash (E.leaf a)) steps)
        (t.preimages E hash) := by
  -- the last step is the one at the root, so the way goes down the tree
  induction steps using List.reverseRecOn with
  | nil =>
    intro t h
    cases t with
    | leaf b =>
      by_cases he : E.leaf a = E.leaf b
      · rw [E.leaf_inj a b he]
        exact .inl List.mem_cons_self
      · exact .inr ⟨_, List.mem_cons_self, _, List.mem_cons_self, he, h⟩
    | node l r => exact .inr ⟨_, List.mem_cons_self, _, List.mem_cons_self, E.leaf_ne_node a _ _, h⟩
  | append_singleton steps step ih =>
    intro t h
    rw [List.foldl_append] at h
    have hmem : riseString E (steps.foldl (rise E hash) (hash (E.leaf a))) step ∈
        E.leaf a :: riseStrings E hash (hash (E.leaf a)) (steps ++ [step]) := by
      rw [riseStrings_concat]
      simp
    have hsub : E.leaf a :: riseStrings E hash (hash (E.leaf a)) steps ⊆
        E.leaf a :: riseStrings E hash (hash (E.leaf a)) (steps ++ [step]) := by
      rw [riseStrings_concat, ← List.cons_append]
      exact List.subset_append_left _ _
    cases t with
    | leaf b =>
      obtain ⟨l, r, hnode⟩ := exists_riseString E (steps.foldl (rise E hash) (hash (E.leaf a))) step
      refine .inr ⟨_, hmem, _, List.mem_cons_self, ?_, h⟩
      rw [hnode]
      exact (E.leaf_ne_node b l r).symm
    | node l r =>
      obtain ⟨side, sibling⟩ := step
      by_cases he : riseString E (steps.foldl (rise E hash) (hash (E.leaf a))) (side, sibling) =
          E.node (l.digest E hash) (r.digest E hash)
      · cases side with
        | true =>
          obtain ⟨rfl, hr⟩ := E.node_inj _ _ _ _ he
          rcases ih r hr with hr | hc
          · exact .inl (List.mem_append_right _ (List.mem_map_of_mem hr))
          · exact .inr (hc.mono hsub (by simp [preimages]))
        | false =>
          obtain ⟨hl, rfl⟩ := E.node_inj _ _ _ _ he
          rcases ih l hl with hl | hc
          · exact .inl (List.mem_append_left _ (List.mem_map_of_mem hl))
          · exact .inr (hc.mono hsub (by simp [preimages]))
      · exact .inr ⟨_, hmem, _, List.mem_cons_self, he, h⟩

/-- The climbs of some trees, each with what comes above its tree, given by the tree's index. -/
def climbsUnder (above : Nat → List (Bool × δ)) : Nat → List (HashTree α) →
    List (α × List (Bool × δ))
  | _, [] => []
  | i, t :: ts => (t.climbs E hash).map (fun c => (c.1, c.2 ++ above i)) ++
      climbsUnder above (i + 1) ts

/-- One level up: a tree that is joined has its neighbour above it, one that is carried has not. -/
theorem climbsUnder_pairUp {above below : Nat → List (Bool × δ)} :
    ∀ (ts : List (HashTree α)) (i : Nat),
    (∀ k a b, ts[2 * k]? = some a → ts[2 * k + 1]? = some b →
      below (2 * (i + k)) = (false, b.digest E hash) :: above (i + k) ∧
      below (2 * (i + k) + 1) = (true, a.digest E hash) :: above (i + k)) →
    (∀ k a, ts[2 * k]? = some a → ts[2 * k + 1]? = none → below (2 * (i + k)) = above (i + k)) →
    climbsUnder E hash above i (pairUp node ts) = climbsUnder E hash below (2 * i) ts
  | [], _, _, _ => rfl
  | [a], i, _, hlast => by
    have hcarried : below (2 * i) = above i := hlast 0 a rfl rfl
    rw [pairUp, climbsUnder, climbsUnder, climbsUnder, hcarried]
    · rfl
    · exact fun _ _ _ h => by cases h
  | a :: b :: ts, i, hpair, hlast => by
    obtain ⟨hl, hr⟩ : below (2 * i) = (false, b.digest E hash) :: above i ∧
        below (2 * i + 1) = (true, a.digest E hash) :: above i := hpair 0 a b rfl rfl
    have ih := climbsUnder_pairUp ts (i + 1)
      (fun k a' b' ha hb => by
        have h := hpair (k + 1) a' b' ha hb
        rwa [← Nat.add_assoc, Nat.add_right_comm] at h)
      (fun k a' ha hb => by
        have h := hlast (k + 1) a' ha hb
        rwa [← Nat.add_assoc, Nat.add_right_comm] at h)
    rw [pairUp, climbsUnder, climbsUnder, climbsUnder, ih, hl, hr, climbs, List.map_append,
      List.map_map, List.map_map, List.append_assoc]
    simp only [Function.comp_def, List.append_assoc, List.cons_append, List.nil_append]
    rfl

/-- The climb of a leaf among leaves is what comes above its index. -/
theorem mem_climbsUnder_leaves {above : Nat → List (Bool × δ)} {as : List α} {i : Nat} {a : α}
    {steps : List (Bool × δ)} : (a, steps) ∈ climbsUnder E hash above i (as.map leaf) ↔
      ∃ j, as[j]? = some a ∧ above (i + j) = steps := by
  induction as generalizing i with
  | nil => simp [climbsUnder]
  | cons b as ih =>
    rw [List.map_cons, climbsUnder, List.mem_append, ih]
    constructor
    · rintro (hm | ⟨j, hj, hs⟩)
      · cases List.mem_singleton.mp hm
        exact ⟨0, rfl, rfl⟩
      · exact ⟨j + 1, hj, by rw [← hs, Nat.add_right_comm, Nat.add_assoc]⟩
    · rintro ⟨j, hj, hs⟩
      cases j with
      | zero =>
        cases hj
        rw [← hs]
        exact .inl List.mem_cons_self
      | succ j => exact .inr ⟨j, hj, by rw [← hs, Nat.add_right_comm, Nat.add_assoc]⟩

end HashTree

end Np2ptp.Lib
