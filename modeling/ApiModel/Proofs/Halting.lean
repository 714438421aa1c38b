/-
  ApiModel.Proofs.Halting

  Recursions that end. What runs on a supply of calls is a family of computations, one for each
  supply; it halts when all large supplies lead to the same outcome and the same state, and the
  outcome is not that the supply was used up. Each combinator has one rule, as for the promises
  about single runs.
-/
import ApiModel.Proofs.Work
import Mathlib.Order.Filter.AtTopBot.Basic
import Mathlib.Order.Filter.AtTopBot.Prod

namespace ApiModel.Work

open Filter

variable {ι κ σ τ α β : Type} {l : Filter ι} {x y : ι → Work σ α} {f : ι → α → Work σ β} {s : σ}

/-- From `s`, the computations `x` end alike from somewhere on along `l`, and not because a supply
    was used up. -/
def Halts (l : Filter ι) (x : ι → Work σ α) (s : σ) : Prop :=
  ∃ r t, (∀ᶠ i in l, (x i).run s = (r, t)) ∧ r ≠ .error .exhausted

namespace Halts

/-- A computation that needs no supply. -/
theorem of_run {z : Work σ α} (h : (z.run s).1 ≠ .error .exhausted) : Halts l (fun _ => z) s :=
  ⟨(z.run s).1, (z.run s).2, .of_forall fun _ => rfl, h⟩

theorem of_fails {z : Work σ α} (h : Fails z s (· ≠ .exhausted)) : Halts l (fun _ => z) s :=
  of_run fun he => h.of_error he rfl

theorem pure {a : α} : Halts l (fun _ => (Pure.pure a : Work σ α)) s :=
  of_run fun h => by cases h

theorem fault {e : Fault} : Halts l (fun _ => (Work.fault e : Work σ α)) s :=
  of_run fun h => by cases h

theorem modify {g : σ → σ} : Halts l (fun _ => Work.modify g) s := of_run fun h => by cases h

/-- The same computations, met in another order. -/
theorem comp {l' : Filter κ} {g : κ → ι} (h : Halts l x s) (hg : Tendsto g l' l) :
    Halts l' (fun i => x (g i)) s := by
  obtain ⟨r, t, hrun, hr⟩ := h
  exact ⟨r, t, hg.eventually hrun, hr⟩

theorem ite {c : Prop} [Decidable c] (hx : c → Halts l x s) (hy : ¬c → Halts l y s) :
    Halts l (fun i => if c then x i else y i) s := by
  by_cases hc : c
  · simp only [if_pos hc]
    exact hx hc
  · simp only [if_neg hc]
    exact hy hc

theorem view_bind {γ : Type} {g : σ → γ} {f : ι → γ → Work σ β}
    (h : Halts l (fun i => f i (g s)) s) : Halts l (fun i => view g >>= f i) s := h

theorem modify_bind {g : σ → σ} {f : ι → Unit → Work σ β}
    (h : Halts l (fun i => f i ()) (g s)) : Halts l (fun i => Work.modify g >>= f i) s := h

theorem thenAlways {after : Except Failure α → σ → σ} (h : Halts l x s) :
    Halts l (fun i => (x i).thenAlways after) s := by
  obtain ⟨r, t, hrun, hr⟩ := h
  refine ⟨r, after r t, ?_, hr⟩
  filter_upwards [hrun] with i hi
  rw [run_thenAlways, hi]

theorem focus {part : τ → σ} {put : σ → τ → τ} {t : τ} (h : Halts l x (part t)) :
    Halts l (fun i => Work.focus part put (x i)) t := by
  obtain ⟨r, u, hrun, hr⟩ := h
  refine ⟨r, put u t, ?_, hr⟩
  filter_upwards [hrun] with i hi
  rw [run_focus, hi]

/-- The second computation is run only when the first gave a result. -/
theorem bind_of_ok (hx : Halts l x s)
    (hf : ∀ a t, (∀ᶠ i in l, (x i).run s = (.ok a, t)) → Halts l (fun i => f i a) t) :
    Halts l (fun i => x i >>= f i) s := by
  obtain ⟨r, t, hrun, hr⟩ := hx
  cases r with
  | error e =>
      refine ⟨.error e, t, ?_, fun he => hr (by cases he; rfl)⟩
      filter_upwards [hrun] with i hi
      rw [run_bind, hi]
  | ok a =>
      obtain ⟨r', t', hrun', hr'⟩ := hf a t hrun
      refine ⟨r', t', ?_, hr'⟩
      filter_upwards [hrun, hrun'] with j hj hj'
      rw [run_bind, hj]
      exact hj'

/-- The second computation starts from what the first is known to leave behind. -/
theorem bind [l.NeBot] {I : σ → Prop} {R : σ → σ → Prop} {Q : α → σ → Prop} (hx : Halts l x s)
    (h : ∀ i, Yields I R (x i) s Q)
    (hf : ∀ a t, I t → R s t → Q a t → Halts l (fun i => f i a) t) :
    Halts l (fun i => x i >>= f i) s := by
  refine hx.bind_of_ok fun a t hrun => ?_
  -- any of the runs tells what the state is like in which the second computation starts
  obtain ⟨i, hi⟩ := hrun.exists
  obtain ⟨⟨hI, hR⟩, hQ⟩ := (h i).of_ok hi
  exact hf a t hI hR hQ

/-- What comes afterwards halts wherever it starts. -/
theorem bind_any (hx : Halts l x s) (hf : ∀ a t, Halts l (fun i => f i a) t) :
    Halts l (fun i => x i >>= f i) s :=
  hx.bind_of_ok fun a t _ => hf a t

/-- A computation of which only the effect counts. -/
theorem discard (hx : Halts l x s) : Halts l (fun i => Functor.discard (x i)) s :=
  hx.bind_any fun _ _ => .pure

/-- One outcome for all supplies that are large enough. -/
theorem exists_supply {x : Nat → Work σ α} (h : Halts atTop x s) :
    ∃ n r t, (∀ m, n ≤ m → (x m).run s = (r, t)) ∧ r ≠ .error .exhausted := by
  obtain ⟨r, t, hrun, hr⟩ := h
  obtain ⟨n, hn⟩ := eventually_atTop.1 hrun
  exact ⟨n, r, t, hn, hr⟩

/-- Computations that are all met sooner or later among others which halt. -/
theorem of_le_map {l' : Filter κ} {g : κ → ι} (h : Halts l' (fun j => x (g j)) s)
    (hg : l ≤ map g l') : Halts l x s := by
  obtain ⟨r, t, hrun, hr⟩ := h
  exact ⟨r, t, hg (mem_map.2 hrun), hr⟩

/-- A recursion halts when one more step of it does. -/
theorem of_step {x : Nat → Work σ α} (h : Halts atTop (fun n => x (n + 1)) s) :
    Halts atTop x s :=
  h.of_le_map (map_add_atTop_eq_nat 1).ge

/-- The same, for a recursion with a supply of its own beside that of the calls it makes. -/
theorem of_inner_step {x : Nat → Nat → Work σ α}
    (h : Halts (atTop ×ˢ atTop) (fun i => x i.1 (i.2 + 1)) s) :
    Halts (atTop ×ˢ atTop) (fun i => x i.1 i.2) s := by
  have hmap : map (Prod.map id (· + 1)) (atTop ×ˢ atTop) = (atTop ×ˢ atTop : Filter (Nat × Nat)) :=
    calc map (Prod.map id (· + 1)) (atTop ×ˢ atTop)
      _ = map id atTop ×ˢ map (· + 1) atTop := (prod_map_map_eq' _ _ _ _).symm
      _ = atTop ×ˢ atTop := by rw [map_id, map_add_atTop_eq_nat]
  exact h.of_le_map hmap.ge

/-- One supply for both. -/
theorem diagonal {x : Nat → Nat → Work σ α} (h : Halts (atTop ×ˢ atTop) (fun i => x i.1 i.2) s) :
    Halts atTop (fun n => x n n) s :=
  h.comp (tendsto_id.prodMk tendsto_id)

end Halts

/-! ## Both in one -/

/-- Every `x i` ends from `s` as told, and provided that `T` holds, `x` halts. -/
structure Settles (T : Prop) (l : Filter ι) (x : ι → Work σ α) (s : σ) (ok : α → σ → Prop)
    (bad : Failure → σ → Prop) : Prop where
  ends : ∀ i, (x i).Ends s ok bad
  halts : T → Halts l x s

namespace Settles

variable {T : Prop} {ok ok' : α → σ → Prop} {ok₂ : β → σ → Prop} {bad bad' : Failure → σ → Prop}

/-- A run that needs no supply and gives a result. -/
theorem of_ok {z : Work σ α} {a : α} {t : σ} (h : z.run s = (.ok a, t)) (hok : ok a t) :
    Settles T l (fun _ => z) s ok bad where
  ends _ := by
    unfold Ends
    rw [h]
    exact hok
  halts _ := .of_run (by simp [h])

theorem pure {a : α} (h : ok a s) : Settles T l (fun _ => (Pure.pure a : Work σ α)) s ok bad :=
  of_ok rfl h

theorem fault {e : Fault} (h : bad (.fault e) s) :
    Settles T l (fun _ => (Work.fault e : Work σ α)) s ok bad where
  ends _ := h
  halts _ := .fault

theorem mono (h : Settles T l x s ok bad) (hok : ∀ a t, ok a t → ok' a t)
    (hbad : ∀ e t, bad e t → bad' e t) : Settles T l x s ok' bad' where
  ends i := Ends.mono (h.ends i) hok hbad
  halts := h.halts

/-- A promise about every run besides. -/
theorem and_ends (h : Settles T l x s ok bad) (h' : ∀ i, (x i).Ends s ok' bad') :
    Settles T l x s (fun a t => ok a t ∧ ok' a t) fun e t => bad e t ∧ bad' e t where
  ends i := Ends.and (h.ends i) (h' i)
  halts := h.halts

theorem thenAlways {after : Except Failure α → σ → σ}
    (h : Settles T l x s (fun a t => ok a (after (.ok a) t)) fun e t => bad e (after (.error e) t)) :
    Settles T l (fun i => (x i).thenAlways after) s ok bad where
  ends i := ends_thenAlways.2 (h.ends i)
  halts hT := (h.halts hT).thenAlways

theorem view_bind {γ : Type} {g : σ → γ} {f : ι → γ → Work σ β}
    (h : Settles T l (fun i => f i (g s)) s ok₂ bad) :
    Settles T l (fun i => view g >>= f i) s ok₂ bad := ⟨h.ends, h.halts⟩

theorem modify_bind {g : σ → σ} {f : ι → Unit → Work σ β}
    (h : Settles T l (fun i => f i ()) (g s) ok₂ bad) :
    Settles T l (fun i => Work.modify g >>= f i) s ok₂ bad := ⟨h.ends, h.halts⟩

theorem ite {c : Prop} [Decidable c] (hx : c → Settles T l x s ok bad)
    (hy : ¬c → Settles T l y s ok bad) :
    Settles T l (fun i => if c then x i else y i) s ok bad := by
  by_cases hc : c
  · simp only [if_pos hc]
    exact hx hc
  · simp only [if_neg hc]
    exact hy hc

/-- The second computation starts from what a result of the first leaves behind. -/
theorem bind [l.NeBot] (hx : Settles T l x s ok bad)
    (hf : ∀ a t, ok a t → Settles T l (fun i => f i a) t ok₂ bad) :
    Settles T l (fun i => x i >>= f i) s ok₂ bad where
  ends i := ends_bind.2 (Ends.mono (hx.ends i) (fun a t ht => (hf a t ht).ends i) fun _ _ h => h)
  halts hT := (hx.halts hT).bind_of_ok fun a t hrun =>
    hrun.exists.elim fun i hi => (hf a t ((hx.ends i).of_ok hi)).halts hT

end Settles

end ApiModel.Work
