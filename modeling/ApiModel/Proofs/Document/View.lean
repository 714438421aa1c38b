/-
  ApiModel.Proofs.Document.View

  Two descriptions that are alike as far as one looks. What is looked at is a set of places which is
  left neither downwards nor by a reference; from any of them, following references leads to the
  same end in both descriptions.
-/
import ApiModel.Proofs.Document
import ApiModel.Proofs.Json

namespace ApiModel.Document

variable {α : Type} {Seen : Pointer → Prop} {document document' v : Json} {p target : Pointer}

/-- The places of `Seen` hold the same in both descriptions, and what stands there leads to no other
    place. -/
structure Alike (Seen : Pointer → Prop) (document document' : Json) : Prop where
  push : ∀ p s, Seen p → Seen (p.push s)
  node : ∀ p v, Seen p → node document p = .ok v → node document' p = .ok v
  target : ∀ p v text q, Seen p → Document.node document p = .ok v → reference? v = some text →
    Pointer.parse? text = some q → Seen q

/-- A description is like itself wherever one looks. -/
theorem Alike.refl (document : Json) : Alike (fun _ => True) document document :=
  ⟨fun _ _ _ => trivial, fun _ _ _ h => h, fun _ _ _ _ _ _ _ _ => trivial⟩

/-- Following references goes on from a value that is none: it ends there. -/
theorem resolveFrom_of_value {trail : List Pointer} (hv : node document p = .ok v)
    (hnone : reference? v = none) : resolveFrom document trail p = .ok (p, v) := by
  rw [resolveFrom]
  split
  · next e he => cases he.symm.trans hv
  · next w hw =>
      cases hw.symm.trans hv
      split
      · rfl
      · next text htext => cases htext.symm.trans hnone

/-- Following references goes on at the pointer that is written, unless that has been met. -/
theorem resolveFrom_of_reference {trail : List Pointer} {text : String} {q : Pointer}
    (hv : node document p = .ok v) (htext : reference? v = some text)
    (hq : Pointer.parse? text = some q) (hnew : q ∉ trail) :
    resolveFrom document trail p = resolveFrom document (trail ++ [q]) q := by
  rw [resolveFrom]
  split
  · next e he => cases he.symm.trans hv
  · next w hw =>
      cases hw.symm.trans hv
      split
      · next hnone => cases htext.symm.trans hnone
      · next text' htext' =>
          cases htext'.symm.trans htext
          split
          · next hnone => cases hq.symm.trans hnone
          · next q' hq' =>
              cases hq'.symm.trans hq
              rw [dif_neg hnew]

/-- References lead from a place that is seen to the same end. -/
theorem Alike.resolve (h : Alike Seen document document') (hp : Seen p)
    (hres : resolve document p = .ok (target, v)) :
    resolve document' p = .ok (target, v) ∧ Seen target := by
  have hfrom : ∀ trail current, Seen current →
      resolveFrom document trail current = .ok (target, v) →
      resolveFrom document' trail current = .ok (target, v) ∧ Seen target := by
    intro trail current hseen hres
    fun_induction resolveFrom document trail current with
    | case1 => cases hres
    | case2 trail current w hw hnone =>
        cases hres
        exact ⟨resolveFrom_of_value (h.node _ _ hseen hw) hnone, hseen⟩
    | case3 => cases hres
    | case4 => cases hres
    | case5 trail current w hw text ht next hq hn ih =>
        rw [resolveFrom_of_reference (h.node _ _ hseen hw) ht hq hn]
        exact ih (h.target _ _ _ _ hseen hw ht hq) hres
  exact hfrom [p] p hp hres

/-- The same holds of the typed object at the end. -/
theorem Alike.resolveAs (h : Alike Seen document document') {s : Shape α} (hp : Seen p) {a : α}
    (hres : resolveAs document s p = .ok (target, a)) :
    resolveAs document' s p = .ok (target, a) ∧ Seen target := by
  obtain ⟨⟨t, v⟩, hv, hres⟩ := Json.ok_of_bind hres
  obtain ⟨a', ha, hres⟩ := Json.ok_of_bind hres
  cases hres
  obtain ⟨hv', hseen⟩ := h.resolve hp hv
  unfold Document.resolveAs
  rw [hv']
  refine ⟨?_, hseen⟩
  show (do return (target, ← readAt s target v)) = _
  rw [ha]
  rfl

/-- A reference that leads to a place that is seen, or an object in place. -/
def OrRef.StaysIn (Seen : Pointer → Prop) (item : OrRef α) : Prop :=
  ∀ text q, item = .ref text → Pointer.parse? text = some q → Seen q

/-- An object in place, or at the end of a reference, is the same in both descriptions. -/
theorem Alike.resolveItem (h : Alike Seen document document') {s : Shape α} {item : OrRef α}
    {place : Pointer} (hitem : item.StaysIn Seen) (hplace : Seen place) {a : α}
    (hres : resolveItem document s item place = .ok (target, a)) :
    resolveItem document' s item place = .ok (target, a) ∧ Seen target := by
  cases item with
  | item b =>
      cases hres
      exact ⟨rfl, hplace⟩
  | ref text =>
      unfold Document.resolveItem at hres ⊢
      dsimp only at hres ⊢
      split at hres
      · next q hq => exact h.resolveAs (hitem text q rfl hq) hres
      · cases hres

end ApiModel.Document
