import Mathlib.Data.List.Basic
import Mathlib.Data.List.Forall2

/-!
# Nested sequences

A value with a sequence of such values inside it, as a group holds tokens, some of which are groups
again. The type is recursive through `List`; `Nest.induction` is the principle to use.
-/

namespace Macro10

open List

/-- Lists are related one by one by a relation that is transitive. -/
theorem forall₂_trans {α : Type} {S : α → α → Prop}
    (hS : ∀ x y z, S x y → S y z → S x z) {xs ys zs : List α} (h : List.Forall₂ S xs ys)
    (h' : List.Forall₂ S ys zs) : List.Forall₂ S xs zs := by
  induction h generalizing zs with
  | nil => exact h'
  | cons hx _ ih =>
    cases h' with
    | cons hy hys => exact .cons (hS _ _ _ hx hy) (ih hys)

/-- A value and what is inside it. -/
inductive Nest (α : Type) where
  | node (value : α) (inside : List (Nest α))

namespace Nest

variable {α β γ δ : Type}

/-- The outermost value. -/
def value : Nest α → α
  | node v _ => v

/-- What is directly inside. -/
def inside : Nest α → List (Nest α)
  | node _ cs => cs

@[simp]
theorem value_node (v : α) (cs : List (Nest α)) : (node v cs).value = v := rfl

@[simp]
theorem inside_node (v : α) (cs : List (Nest α)) : (node v cs).inside = cs := rfl

@[simp]
theorem node_value_inside (t : Nest α) : node t.value t.inside = t := by
  cases t; rfl

/-- A property of nests is proved from the same property of what is directly inside. -/
@[elab_as_elim, induction_eliminator]
theorem induction {motive : Nest α → Prop}
    (node : ∀ v cs, (∀ c ∈ cs, motive c) → motive (node v cs)) : ∀ t, motive t
  | .node v cs => node v cs fun c _ => induction node c

/-- The nest with another value outside. -/
def setValue (v : α) (t : Nest α) : Nest α := node v t.inside

@[simp]
theorem value_setValue (v : α) (t : Nest α) : (t.setValue v).value = v := rfl

@[simp]
theorem inside_setValue (v : α) (t : Nest α) : (t.setValue v).inside = t.inside := rfl

/-- All values are changed by `f`. -/
def map (f : α → β) : Nest α → Nest β
  | node v cs => node (f v) (cs.map (map f))

@[simp]
theorem value_map (f : α → β) (t : Nest α) : (t.map f).value = f t.value := by
  cases t; rw [map]; rfl

@[simp]
theorem inside_map (f : α → β) (t : Nest α) : (t.map f).inside = t.inside.map (map f) := by
  cases t; rw [map]; rfl

/-- Two maps are one. -/
theorem map_map (g : β → γ) (f : α → β) (t : Nest α) : (t.map f).map g = t.map (g ∘ f) := by
  induction t with
  | node v cs ih =>
    rw [map, map, map, List.map_map]
    exact congrArg _ (map_congr_left ih)

theorem map_id' (t : Nest α) : t.map (fun v => v) = t := by
  induction t with
  | node v cs ih =>
    rw [map]
    exact congrArg _ ((map_congr_left ih).trans (List.map_id' cs))

/-- So they are on several nests. -/
theorem list_map_map (g : β → γ) (f : α → β) (ts : List (Nest α)) :
    (ts.map (map f)).map (map g) = ts.map (map (g ∘ f)) := by
  rw [List.map_map]
  exact map_congr_left fun t _ => map_map g f t

/-- All values, an outer one before those inside it. -/
def values : Nest α → List α
  | node v cs => v :: cs.flatMap values

/-- The values, without a look at the constructor. -/
theorem values_eq (t : Nest α) : t.values = t.value :: t.inside.flatMap values := by
  cases t; rw [values]; rfl

theorem value_mem_values (t : Nest α) : t.value ∈ t.values := by
  rw [values_eq]; exact mem_cons_self

/-- The values of several nests, one nest after another. -/
def listing (ts : List (Nest α)) : List α := ts.flatMap values

@[simp]
theorem listing_nil : listing ([] : List (Nest α)) = [] := rfl

@[simp]
theorem listing_cons (t : Nest α) (ts : List (Nest α)) :
    listing (t :: ts) = t.values ++ listing ts := by
  simp [listing]

@[simp]
theorem listing_append (ts us : List (Nest α)) : listing (ts ++ us) = listing ts ++ listing us := by
  simp [listing]

theorem values_node (v : α) (cs : List (Nest α)) : (node v cs).values = v :: listing cs := by
  rw [values]; rfl

/-- Maps change the values one by one. -/
theorem values_map (f : α → β) (t : Nest α) : (t.map f).values = t.values.map f := by
  induction t with
  | node v cs ih =>
    rw [map, values, values, map_cons, flatMap_map, map_flatMap]
    exact congrArg _ (flatMap_congr ih)

/-- So they do in a listing. -/
theorem listing_map (f : α → β) (ts : List (Nest α)) :
    listing (ts.map (map f)) = (listing ts).map f := by
  rw [listing, listing, flatMap_map, map_flatMap]
  exact flatMap_congr fun t _ => values_map f t

/-- Nests of the same form are the same if their values are. -/
theorem map_eq_of_listing {f' : α → δ} {g' : β → δ} {ts : List (Nest α)} {us : List (Nest β)}
    (hform : ts.map (map f') = us.map (map g')) {f : α → γ} {g : β → γ}
    (h : (listing ts).map f = (listing us).map g) : ts.map (map f) = us.map (map g) := by
  induction hn : (listing ts).length using Nat.strongRecOn generalizing ts us with
  | _ n ih =>
    cases ts with
    | nil =>
      obtain rfl : us = [] := map_eq_nil_iff.mp hform.symm
      rfl
    | cons t ts =>
      obtain ⟨u, us, rfl, hfirst, hrest⟩ := map_eq_cons_iff.mp hform.symm
      obtain ⟨v, cs⟩ := t
      obtain ⟨w, ds⟩ := u
      rw [map, map] at hfirst
      obtain ⟨-, hinside⟩ := node.inj hfirst
      have hlength : (listing cs).length = (listing ds).length := by
        have heq := congrArg (fun xs => (listing xs).length) hinside.symm
        simpa [listing_map] using heq
      simp only [listing_cons, values_node, cons_append, map_cons, map_append,
        List.cons.injEq, length_cons, length_append] at h hn
      obtain ⟨hvalue, hvalues⟩ := h
      obtain ⟨hcs, hts⟩ := append_inj hvalues (by simpa using hlength)
      rw [map_cons, map_cons, map, map, hvalue, ih _ (by omega) hinside.symm hcs rfl,
        ih _ (by omega) hrest.symm hts rfl]

/-- There are fewer values inside than in all. -/
theorem length_listing_inside_lt (t : Nest α) : (listing t.inside).length < t.values.length := by
  rw [values_eq]
  exact Nat.lt_succ_self _

/-- The values of a nest are among those of a list that has it. -/
theorem length_values_le {t : Nest α} {ts : List (Nest α)} (h : t ∈ ts) :
    t.values.length ≤ (listing ts).length := by
  induction ts with
  | nil => cases h
  | cons u us ih =>
    rw [listing_cons, length_append]
    rcases mem_cons.mp h with rfl | hmem
    · omega
    · have := ih hmem
      omega

/-- Nests are looked at after what is inside them. -/
@[elab_as_elim]
theorem inside_induction {motive : List (Nest α) → Prop}
    (step : ∀ ts, (∀ t ∈ ts, motive t.inside) → motive ts) (ts : List (Nest α)) : motive ts := by
  induction hn : (listing ts).length using Nat.strongRecOn generalizing ts with
  | _ n ih =>
    refine step ts fun t ht => ih _ ?_ t.inside rfl
    have hle := length_values_le ht
    have hlt := length_listing_inside_lt t
    omega

/-! ## All rows -/

/-- `P` holds of the nests and of what is inside them, at any depth. -/
inductive Throughout (P : List (Nest α) → Prop) : List (Nest α) → Prop
  | intro {ts : List (Nest α)} (row : P ts) (inside : ∀ t ∈ ts, Throughout P t.inside) :
      Throughout P ts

namespace Throughout

variable {P Q : List (Nest α) → Prop} {ts : List (Nest α)}

/-- A weaker property holds throughout as well. -/
theorem mono (h : Throughout P ts) (hPQ : ∀ us, P us → Q us) : Throughout Q ts := by
  induction h with
  | intro row _ ih => exact ⟨hPQ _ row, ih⟩

/-- Two properties that hold throughout do so together. -/
theorem and (h : Throughout P ts) (h' : Throughout Q ts) :
    Throughout (fun us => P us ∧ Q us) ts := by
  induction h with
  | intro row _ ih =>
    cases h' with
    | intro row' inside' => exact ⟨⟨row, row'⟩, fun t ht => ih t ht (inside' t ht)⟩

theorem map {f : α → β} {P : List (Nest β) → Prop}
    (h : Throughout (fun us => P (us.map (Nest.map f))) ts) :
    Throughout P (ts.map (Nest.map f)) := by
  induction h with
  | intro row _ ih =>
    refine ⟨row, fun t ht => ?_⟩
    obtain ⟨u, hu, rfl⟩ := mem_map.mp ht
    rw [inside_map]
    exact ih u hu

theorem of_map {f : α → β} {P : List (Nest β) → Prop} (h : Throughout P (ts.map (Nest.map f))) :
    Throughout (fun us => P (us.map (Nest.map f))) ts := by
  generalize hus : ts.map (Nest.map f) = us at h
  induction h generalizing ts with
  | intro row _ ih =>
    subst hus
    refine ⟨row, fun t ht => ih _ (mem_map_of_mem ht) ?_⟩
    rw [inside_map]

end Throughout

/-! ## Rows of rows -/

/-- The nests `us` are a row of `ts`: they are all of it, or a row inside one of its nests. -/
inductive Within (us : List (Nest α)) : List (Nest α) → Prop
  | refl : Within us us
  | inside {ts : List (Nest α)} {t : Nest α} (ht : t ∈ ts) (h : Within us t.inside) : Within us ts

namespace Within

variable {us ts : List (Nest α)}

section

variable (h : Within us ts)
include h

/-- What holds throughout holds of each row. -/
theorem row {P : List (Nest α) → Prop} (hts : Throughout P ts) : P us := by
  induction h with
  | refl =>
    cases hts with
    | intro row _ => exact row
  | inside ht _ ih =>
    cases hts with
    | intro _ inside => exact ih (inside _ ht)

/-- The values of a row are values of the whole. -/
theorem listing_subset : listing us ⊆ listing ts := by
  induction h with
  | refl => exact List.Subset.refl _
  | inside ht _ ih =>
    intro v hv
    refine mem_flatMap.mpr ⟨_, ht, ?_⟩
    rw [values_eq]
    exact mem_cons_of_mem _ (ih hv)

/-- In a larger list there is a row with the same nests. -/
theorem mono {ts' : List (Nest α)} (hsub : ts ⊆ ts') : ∃ us', us ⊆ us' ∧ Within us' ts' := by
  cases h with
  | refl => exact ⟨ts', hsub, .refl⟩
  | inside ht h => exact ⟨us, List.Subset.refl _, .inside (hsub ht) h⟩

/-- A row of a row is a row. -/
theorem trans {vs : List (Nest α)} (h' : Within ts vs) : Within us vs := by
  induction h' with
  | refl => exact h
  | inside ht _ ih => exact .inside ht ih

theorem map (f : α → β) : Within (us.map (Nest.map f)) (ts.map (Nest.map f)) := by
  induction h with
  | refl => exact .refl
  | inside ht _ ih =>
    refine .inside (mem_map_of_mem ht) ?_
    rwa [inside_map]

end

/-- A row of what a map gives comes from a row. -/
theorem of_map {f : α → β} {us : List (Nest β)} (h : Within us (ts.map (Nest.map f))) :
    ∃ vs, us = vs.map (Nest.map f) ∧ Within vs ts := by
  generalize hws : ts.map (Nest.map f) = ws at h
  induction h generalizing ts with
  | refl => exact ⟨ts, hws.symm, .refl⟩
  | inside ht _ ih =>
    rw [← hws] at ht
    obtain ⟨t, hmem, rfl⟩ := mem_map.mp ht
    obtain ⟨vs, hvs, hwithin⟩ := ih (inside_map f t).symm
    exact ⟨vs, hvs, .inside hmem hwithin⟩

end Within

/-- Every value stands in a row. -/
theorem exists_within {v : α} {ts : List (Nest α)} (h : v ∈ listing ts) :
    ∃ us, Within us ts ∧ ∃ t ∈ us, t.value = v := by
  obtain ⟨t, ht, hv⟩ := mem_flatMap.mp h
  induction t generalizing ts with
  | node w cs ih =>
    rw [values] at hv
    rcases mem_cons.mp hv with rfl | hv
    · exact ⟨ts, .refl, _, ht, rfl⟩
    · obtain ⟨c, hc, hvc⟩ := mem_flatMap.mp hv
      obtain ⟨us, hwithin, hmem⟩ := ih c hc hv hc hvc
      exact ⟨us, .inside ht hwithin, hmem⟩

end Nest

end Macro10
