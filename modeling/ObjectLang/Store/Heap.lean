/-!
Heaps: values kept under the numbers that were given out for them, in order.
A heap is a balanced tree. The value at the root has number 0; the odd numbers are kept on the left
and the even ones on the right, each under half of itself, so that every value is a few steps away.
-/
namespace ObjectLang

namespace Heap

inductive Tree (α : Type) where
  | nil
  | node (a : α) (left right : Tree α)

namespace Tree

variable {α : Type}

def get? : Tree α → Nat → Option α
  | nil, _ => none
  | node a left right, i =>
    if i = 0 then some a
    else if i % 2 = 1 then left.get? (i / 2)
    else right.get? (i / 2 - 1)

def modify (f : α → α) : Tree α → Nat → Tree α
  | nil, _ => nil
  | node a left right, i =>
    if i = 0 then node (f a) left right
    else if i % 2 = 1 then node a (left.modify f (i / 2)) right
    else node a left (right.modify f (i / 2 - 1))

def add (x : α) : Tree α → Nat → Tree α
  | nil, _ => node x nil nil
  | node a left right, n =>
    if n % 2 = 1 then node a (left.add x (n / 2)) right
    else node a left (right.add x (n / 2 - 1))

/-- The tree holds the numbers below `n` and no others. -/
def Holds : Tree α → Nat → Prop
  | nil, n => n = 0
  | node _ left right, n => 0 < n ∧ left.Holds (n / 2) ∧ right.Holds ((n - 1) / 2)

theorem Holds.get?_eq_none {t : Tree α} {n : Nat} (h : t.Holds n) (i : Nat) :
    t.get? i = none ↔ n ≤ i := by
  induction t generalizing n i with
  | nil =>
    obtain rfl : n = 0 := h
    simp [get?]
  | node a left right ihl ihr =>
    obtain ⟨hpos, hleft, hright⟩ := h
    by_cases hi : i = 0
    · simp only [get?, hi, if_true]
      constructor
      · simp
      · omega
    · by_cases hodd : i % 2 = 1
      · rw [get?, if_neg hi, if_pos hodd, ihl hleft]
        omega
      · rw [get?, if_neg hi, if_neg hodd, ihr hright]
        omega

theorem Holds.modify {t : Tree α} {n : Nat} (h : t.Holds n) (f : α → α) (i : Nat) :
    (t.modify f i).Holds n := by
  induction t generalizing n i with
  | nil => exact h
  | node a left right ihl ihr =>
    obtain ⟨hpos, hleft, hright⟩ := h
    rw [Tree.modify]
    split
    · exact ⟨hpos, hleft, hright⟩
    · split
      · exact ⟨hpos, ihl hleft _, hright⟩
      · exact ⟨hpos, hleft, ihr hright _⟩

theorem get?_modify (f : α → α) (t : Tree α) (i j : Nat) :
    (t.modify f i).get? j = if i = j then (t.get? j).map f else t.get? j := by
  induction t generalizing i j with
  | nil => simp [modify, get?]
  | node a left right ihl ihr =>
    by_cases hi : i = 0
    · by_cases hj : j = 0
      · simp [modify, get?, hi, hj]
      · simp [modify, get?, hi, hj, Ne.symm hj]
    · by_cases hodd : i % 2 = 1
      · rw [modify, if_neg hi, if_pos hodd, get?, get?, ihl]
        by_cases hij : i = j
        · subst hij
          simp [hi, hodd]
        · by_cases hj : j % 2 = 1
          · have hne : i / 2 ≠ j / 2 := by omega
            simp [hij, hj, hne]
          · simp [hij, hj]
      · rw [modify, if_neg hi, if_neg hodd, get?, get?, ihr]
        by_cases hij : i = j
        · subst hij
          simp [hi, hodd]
        · by_cases hj : j = 0 ∨ j % 2 = 1
          · rcases hj with hj | hj
            · subst hj
              simp [hi]
            · simp [hij, hj]
          · have hne : i / 2 - 1 ≠ j / 2 - 1 := by omega
            simp [hij, hne]

theorem Holds.add {t : Tree α} {n : Nat} (h : t.Holds n) (x : α) : (t.add x n).Holds (n + 1) := by
  induction t generalizing n with
  | nil =>
    obtain rfl : n = 0 := h
    exact ⟨Nat.one_pos, rfl, rfl⟩
  | node a left right ihl ihr =>
    obtain ⟨hpos, hleft, hright⟩ := h
    rw [Tree.add]
    split
    · have hright' : (n - 1) / 2 = (n + 1 - 1) / 2 := by omega
      have hleft' : n / 2 + 1 = (n + 1) / 2 := by omega
      exact ⟨Nat.succ_pos n, hleft' ▸ ihl hleft, hright' ▸ hright⟩
    · have hnext : (n - 1) / 2 = n / 2 - 1 := by omega
      have hright' : n / 2 - 1 + 1 = (n + 1 - 1) / 2 := by omega
      have hleft' : n / 2 = (n + 1) / 2 := by omega
      rw [hnext] at hright
      exact ⟨Nat.succ_pos n, hleft' ▸ hleft, hright' ▸ ihr hright⟩

theorem Holds.get?_add {t : Tree α} {n : Nat} (h : t.Holds n) (x : α) (i : Nat) :
    (t.add x n).get? i = if i = n then some x else t.get? i := by
  induction t generalizing n i with
  | nil =>
    obtain rfl : n = 0 := h
    by_cases hi : i = 0
    · simp [Tree.add, get?, hi]
    · simp [Tree.add, get?, hi]
  | node a left right ihl ihr =>
    obtain ⟨hpos, hleft, hright⟩ := h
    by_cases hodd : n % 2 = 1
    · rw [Tree.add, if_pos hodd, get?, get?, ihl hleft]
      by_cases hin : i = n
      · subst hin
        simp [Nat.ne_of_gt hpos, hodd]
      · by_cases hi : i % 2 = 1
        · have hne : i / 2 ≠ n / 2 := by omega
          simp [hin, hi, hne]
        · simp [hin, hi]
    · have hnext : (n - 1) / 2 = n / 2 - 1 := by omega
      rw [hnext] at hright
      rw [Tree.add, if_neg hodd, get?, get?, ihr hright]
      by_cases hin : i = n
      · subst hin
        simp [Nat.ne_of_gt hpos, hodd]
      · by_cases hi : i = 0 ∨ i % 2 = 1
        · rcases hi with hi | hi
          · simp [hi, Nat.ne_of_lt hpos]
          · simp [hin, hi]
        · have hne : i / 2 - 1 ≠ n / 2 - 1 := by omega
          simp [hin, hne]

/-- A tree is known by its values. -/
theorem ext {t u : Tree α} (h : ∀ i, t.get? i = u.get? i) : t = u := by
  induction t generalizing u with
  | nil =>
    cases u with
    | nil => rfl
    | node b left right => simpa [get?] using h 0
  | node a left right ihl ihr =>
    cases u with
    | nil => simpa [get?] using h 0
    | node b left' right' =>
      have hroot : a = b := by simpa [get?] using h 0
      have hleft : left = left' := ihl fun i => by
        have hodd : (2 * i + 1) % 2 = 1 := by omega
        have hhalf : (2 * i + 1) / 2 = i := by omega
        simpa [get?, hodd, hhalf] using h (2 * i + 1)
      have hright : right = right' := ihr fun i => by
        have heven : (2 * i + 2) % 2 = 0 := by omega
        have hhalf : (2 * i + 2) / 2 - 1 = i := by omega
        simpa [get?, heven, hhalf] using h (2 * i + 2)
      rw [hroot, hleft, hright]

end Tree

end Heap

structure Heap (α : Type) where
  size : Nat
  tree : Heap.Tree α
  holds : tree.Holds size

namespace Heap

variable {α : Type}

def empty : Heap α := ⟨0, .nil, rfl⟩

def get? (h : Heap α) (i : Nat) : Option α := h.tree.get? i

def getD (h : Heap α) (i : Nat) (default : α) : α := (h.get? i).getD default

def push (h : Heap α) (x : α) : Heap α := ⟨h.size + 1, h.tree.add x h.size, h.holds.add x⟩

def modify (h : Heap α) (i : Nat) (f : α → α) : Heap α :=
  ⟨h.size, h.tree.modify f i, h.holds.modify f i⟩

variable (h : Heap α)

theorem get?_eq_none_iff (i : Nat) : h.get? i = none ↔ h.size ≤ i := h.holds.get?_eq_none i

@[simp] theorem size_push (x : α) : (h.push x).size = h.size + 1 := rfl

@[simp] theorem size_modify (i : Nat) (f : α → α) : (h.modify i f).size = h.size := rfl

theorem get?_push (x : α) (i : Nat) :
    (h.push x).get? i = if i = h.size then some x else h.get? i := h.holds.get?_add x i

theorem get?_modify (i : Nat) (f : α → α) (j : Nat) :
    (h.modify i f).get? j = if i = j then (h.get? j).map f else h.get? j :=
  Tree.get?_modify f h.tree i j

variable (default : α)

theorem getD_of_size_le {i : Nat} (hi : h.size ≤ i) : h.getD i default = default := by
  rw [getD, (h.get?_eq_none_iff i).mpr hi, Option.getD_none]

theorem getD_push (x : α) (i : Nat) :
    (h.push x).getD i default = if i = h.size then x else h.getD i default := by
  rw [getD, get?_push]
  split <;> rfl

theorem getD_modify (i : Nat) (f : α → α) (j : Nat) :
    (h.modify i f).getD j default =
      if i = j ∧ j < h.size then f (h.getD j default) else h.getD j default := by
  by_cases hj : j < h.size
  · have hsome : h.get? j ≠ none := fun hnone =>
      Nat.not_le_of_lt hj ((h.get?_eq_none_iff j).mp hnone)
    obtain ⟨x, hx⟩ := Option.ne_none_iff_exists'.mp hsome
    rw [getD, getD, get?_modify, hx]
    by_cases hij : i = j
    · rw [if_pos hij, if_pos ⟨hij, hj⟩]
      rfl
    · rw [if_neg hij, if_neg fun h => hij h.1]
  · have hsize := Nat.not_lt.mp hj
    rw [if_neg fun h => hj h.2, getD_of_size_le h _ hsize,
      getD_of_size_le (h.modify i f) _ hsize]

theorem ext {h h' : Heap α} (hsize : h.size = h'.size) (hget : ∀ i, h.get? i = h'.get? i) :
    h = h' := by
  obtain ⟨n, t, ht⟩ := h
  obtain ⟨n', t', ht'⟩ := h'
  obtain rfl : n = n' := hsize
  obtain rfl : t = t' := Tree.ext hget
  rfl

theorem modify_of_size_le {i : Nat} (hi : h.size ≤ i) (f : α → α) : h.modify i f = h := by
  refine ext rfl fun j => ?_
  rw [get?_modify]
  split
  · next hij => rw [← hij, (h.get?_eq_none_iff i).mpr hi, Option.map_none]
  · rfl

end Heap

end ObjectLang
