/-
  ApiModel.Dict

  A finite map that remembers the order in which its keys first came. Documents, memo tables and the
  class table are all of this kind: what a later answer shows is both which value a key has and in
  which order the keys were met. An insertion under a known key keeps the key's place and replaces
  its value, so the key list never repeats.
-/

namespace ApiModel

/-- Entries in the order in which their keys were first inserted. -/
structure Dict (κ α : Type) where
  entries : List (κ × α)

namespace Dict

variable {κ α : Type} [DecidableEq κ]

/-- The map with no entry. -/
def empty : Dict κ α := ⟨[]⟩

instance : Inhabited (Dict κ α) := ⟨empty⟩

/-- The value under `k`, if there is one. -/
def get? (d : Dict κ α) (k : κ) : Option α := d.entries.lookup k

/-- Whether `k` has a value. -/
def contains (d : Dict κ α) (k : κ) : Bool := (d.get? k).isSome

/-- The keys, oldest first. -/
def keys (d : Dict κ α) : List κ := d.entries.map Prod.fst

/-- The values, in the order of their keys. -/
def values (d : Dict κ α) : List α := d.entries.map Prod.snd

/-- The number of keys. -/
def size (d : Dict κ α) : Nat := d.entries.length

/-- Whether there is no entry. -/
def isEmpty (d : Dict κ α) : Bool := d.entries.isEmpty

/-- Entries with `k` set to `v`: in the place of `k`, or at the end when `k` is new. -/
def put (k : κ) (v : α) : List (κ × α) → List (κ × α)
  | [] => [(k, v)]
  | (k', v') :: rest => if k' = k then (k, v) :: rest else (k', v') :: put k v rest

/-- Set `k` to `v`; a known key keeps its place. -/
def insert (d : Dict κ α) (k : κ) (v : α) : Dict κ α := ⟨put k v d.entries⟩

/-- Set `k` to `v` unless it has a value already. -/
def insertIfNew (d : Dict κ α) (k : κ) (v : α) : Dict κ α :=
  if d.contains k then d else d.insert k v

/-- Forget `k`. -/
def erase (d : Dict κ α) (k : κ) : Dict κ α := ⟨d.entries.filter fun e => e.1 ≠ k⟩

/-- The map of a list of entries: a repeated key keeps its first place and its last value. -/
def ofList (entries : List (κ × α)) : Dict κ α :=
  entries.foldl (fun d e => d.insert e.1 e.2) empty

/-- The map with its keys in ascending order. -/
def sortByKey [LT κ] [DecidableLT κ] (d : Dict κ α) : Dict κ α :=
  ⟨d.entries.mergeSort fun a b => !decide (b.1 < a.1)⟩

/-- Equality that forgets the order of the keys. -/
def sameEntries [BEq α] (a b : Dict κ α) : Bool :=
  a.size == b.size && a.entries.all fun e => b.get? e.1 == some e.2

/-! ## The view through `get?` -/

@[simp] theorem get?_empty (k : κ) : (empty : Dict κ α).get? k = none := rfl

theorem lookup_put_self (k : κ) (v : α) (es : List (κ × α)) : (put k v es).lookup k = some v := by
  induction es with
  | nil => simp [put]
  | cons e es ih =>
    obtain ⟨k', v'⟩ := e
    by_cases h : k' = k
    · simp [put, h]
    · have hne : (k == k') = false := by simpa using fun e => h e.symm
      simp [put, h, List.lookup_cons, hne, ih]

theorem lookup_put_of_ne {k k₁ : κ} (hne : k₁ ≠ k) (v : α) (es : List (κ × α)) :
    (put k v es).lookup k₁ = es.lookup k₁ := by
  have hb : (k₁ == k) = false := by simpa using hne
  induction es with
  | nil => simp [put, List.lookup_cons, hb]
  | cons e es ih =>
    obtain ⟨k', v'⟩ := e
    by_cases h : k' = k
    · subst h; simp [put, List.lookup_cons, hb]
    · simp [put, h, List.lookup_cons, ih]

@[simp] theorem get?_insert_self (d : Dict κ α) (k : κ) (v : α) :
    (d.insert k v).get? k = some v :=
  lookup_put_self k v d.entries

theorem get?_insert_of_ne (d : Dict κ α) {k k₁ : κ} (hne : k₁ ≠ k) (v : α) :
    (d.insert k v).get? k₁ = d.get? k₁ :=
  lookup_put_of_ne hne v d.entries

theorem get?_insert (d : Dict κ α) (k k₁ : κ) (v : α) :
    (d.insert k v).get? k₁ = if k₁ = k then some v else d.get? k₁ := by
  by_cases h : k₁ = k
  · subst h; simp
  · simp [h, get?_insert_of_ne]

/-- A key that has a value keeps it, and a new one gets it. -/
theorem get?_insertIfNew (d : Dict κ α) (k k₁ : κ) (v : α) :
    (d.insertIfNew k v).get? k₁ = if k₁ = k then some ((d.get? k).getD v) else d.get? k₁ := by
  by_cases h : k₁ = k
  · subst h
    unfold insertIfNew contains
    cases hk : d.get? k₁ <;> simp [hk]
  · unfold insertIfNew
    split <;> simp [h, get?_insert]

theorem lookup_filter_ne (k k₁ : κ) (es : List (κ × α)) :
    (es.filter fun e => e.1 ≠ k).lookup k₁ = if k₁ = k then none else es.lookup k₁ := by
  induction es with
  | nil => simp
  | cons e es ih =>
    obtain ⟨k', v⟩ := e
    by_cases hk : k' = k
    · subst hk
      have hdrop : ((k', v) :: es).filter (fun e => e.1 ≠ k') = es.filter fun e => e.1 ≠ k' := by
        simp
      rw [hdrop, ih]
      by_cases h : k₁ = k'
      · simp [h]
      · have hb : (k₁ == k') = false := by simpa using h
        simp [h, List.lookup_cons, hb]
    · have hkeep : ((k', v) :: es).filter (fun e => e.1 ≠ k) =
          (k', v) :: es.filter fun e => e.1 ≠ k := by simp [hk]
      rw [hkeep, List.lookup_cons, List.lookup_cons, ih]
      by_cases h : k₁ = k'
      · have hne : ¬k₁ = k := fun e => hk (h.symm.trans e)
        simp [hne]
      · have hb : (k₁ == k') = false := by simpa using h
        simp [hb]

/-- A forgotten key has no value, and the others keep theirs. -/
theorem get?_erase (d : Dict κ α) (k k₁ : κ) :
    (d.erase k).get? k₁ = if k₁ = k then none else d.get? k₁ :=
  lookup_filter_ne k k₁ d.entries

/-! ## The view through `keys` -/

theorem map_fst_put (k : κ) (v : α) (es : List (κ × α)) :
    (put k v es).map Prod.fst =
      if k ∈ es.map Prod.fst then es.map Prod.fst else es.map Prod.fst ++ [k] := by
  induction es with
  | nil => simp [put]
  | cons e es ih =>
    obtain ⟨k', v'⟩ := e
    by_cases h : k' = k
    · simp [put, h]
    · have h' : ¬ k = k' := fun e => h e.symm
      by_cases hm : k ∈ es.map Prod.fst <;> simp_all [put]

/-- An insertion adds its key at the end, or not at all. -/
theorem keys_insert (d : Dict κ α) (k : κ) (v : α) :
    (d.insert k v).keys = if k ∈ d.keys then d.keys else d.keys ++ [k] :=
  map_fst_put k v d.entries

theorem nodup_keys_insert {d : Dict κ α} (hd : d.keys.Nodup) (k : κ) (v : α) :
    (d.insert k v).keys.Nodup := by
  rw [keys_insert]
  split
  · exact hd
  · next hk => exact List.nodup_append.2 ⟨hd, by simp, by
      intro a ha b hb; simp at hb; subst hb; exact fun e => hk (e ▸ ha)⟩

end Dict

end ApiModel
