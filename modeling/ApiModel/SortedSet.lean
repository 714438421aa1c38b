/-
  ApiModel.SortedSet

  A finite set kept as its ascending list of members, so that two sets are equal exactly when their
  lists are. Required property names, reserved words and the operands of a pending conjunction are
  such sets: each is compared as a whole and written in ascending order.
-/

namespace ApiModel

/-- The members, ascending and without repetition. -/
structure SortedSet (α : Type) where
  elements : List α
  deriving DecidableEq

namespace SortedSet

variable {α : Type} [LT α] [DecidableLT α] [DecidableEq α]

/-- The set with no member. -/
def empty : SortedSet α := ⟨[]⟩

instance : Inhabited (SortedSet α) := ⟨empty⟩

/-- The set whose one member is `x`. -/
def singleton (x : α) : SortedSet α := ⟨[x]⟩

/-- Whether `x` is a member. -/
def contains (s : SortedSet α) (x : α) : Bool := s.elements.contains x

/-- Whether there is no member. -/
def isEmpty (s : SortedSet α) : Bool := s.elements.isEmpty

/-- The number of members. -/
def size (s : SortedSet α) : Nat := s.elements.length

/-- An ascending list with `x` put in its place. -/
def place (x : α) : List α → List α
  | [] => [x]
  | y :: ys => if x < y then x :: y :: ys else if x = y then y :: ys else y :: place x ys

/-- Add a member. -/
def insert (s : SortedSet α) (x : α) : SortedSet α := ⟨place x s.elements⟩

/-- The set of the members of a list. -/
def ofList (xs : List α) : SortedSet α := xs.foldl insert empty

/-- The members of either set. -/
def union (s t : SortedSet α) : SortedSet α := t.elements.foldl insert s

theorem mem_place {x y : α} {ys : List α} : y ∈ place x ys ↔ y = x ∨ y ∈ ys := by
  induction ys with
  | nil => simp [place]
  | cons z zs ih =>
    simp only [place]
    split
    · simp
    · split
      · next h => subst h; simp
      · simp [ih]; grind

theorem mem_insert {s : SortedSet α} {x y : α} :
    y ∈ (s.insert x).elements ↔ y = x ∨ y ∈ s.elements :=
  mem_place

theorem mem_foldl_insert (xs : List α) (s : SortedSet α) (y : α) :
    y ∈ (xs.foldl insert s).elements ↔ y ∈ s.elements ∨ y ∈ xs := by
  induction xs generalizing s with
  | nil => simp
  | cons x xs ih => simp only [List.foldl_cons, ih, mem_insert, List.mem_cons]; grind

theorem mem_ofList {xs : List α} {y : α} : y ∈ (ofList xs).elements ↔ y ∈ xs := by
  simp [ofList, mem_foldl_insert, empty]

theorem mem_union {s t : SortedSet α} {y : α} :
    y ∈ (s.union t).elements ↔ y ∈ s.elements ∨ y ∈ t.elements :=
  mem_foldl_insert t.elements s y

end SortedSet

end ApiModel
