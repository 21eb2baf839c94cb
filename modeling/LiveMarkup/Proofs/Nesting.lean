import LiveMarkup.Rendered.Merge
import LiveMarkup.Proofs.KeyedUpdates

/-!
# Fragments in fragments

Merging and filling go from a fragment to the fragments in its gaps, and not into rows. So what is proved of them goes by
induction on the gaps (`Fragment.inductionOnGaps`). On one level, merging dynamics and filling in dynamics are updates of
keyed lists (`mergeChildren_eq`, `fillChildren_eq`), in which each dynamic is made from the one in the same gap.
-/

namespace LiveMarkup.Rendered

/-! ## Gaps at every depth -/

/-- What holds of comprehensions, and of a regular fragment if it holds of the fragments in its gaps, holds of all
fragments. -/
@[elab_as_elim]
theorem Fragment.inductionOnGaps {p : Fragment → Prop}
    (comprehension : ∀ statics rows own stream, p (.comprehension statics rows own stream))
    (regular : ∀ statics children, (∀ gap f, (gap, Child.fragment f) ∈ children → p f) → p (.regular statics children)) :
    ∀ f : Fragment, p f
  | .comprehension statics rows own stream => comprehension statics rows own stream
  | .regular statics children =>
    regular statics children fun _ f _hmem => Fragment.inductionOnGaps comprehension regular f
termination_by f => sizeOf f
decreasing_by
  have := List.sizeOf_lt_of_mem _hmem
  simp only [Prod.mk.sizeOf_spec, Child.fragment.sizeOf_spec] at this
  simp only [Fragment.regular.sizeOf_spec]
  omega

mutual

/-- A property of a fragment and of the fragments in its gaps, at every depth. -/
def Fragment.Throughout (p : Fragment → Prop) : Fragment → Prop
  | .regular statics children => p (.regular statics children) ∧ EachThroughout p children
  | .comprehension statics rows own stream => p (.comprehension statics rows own stream)

/-- A property of the fragments in a dynamic. -/
def Child.Throughout (p : Fragment → Prop) : Child → Prop
  | .fragment f => f.Throughout p
  | .component _ => True
  | .text _ => True

/-- A property of the fragments in each of the dynamics. -/
def EachThroughout (p : Fragment → Prop) : List (Nat × Child) → Prop
  | [] => True
  | (_, c) :: rest => c.Throughout p ∧ EachThroughout p rest

end

section

variable {p : Fragment → Prop} {children : Children} {statics : Option Statics} {rows : List Row} {own : Templates}
  {stream : Option Stream} {f : Fragment}

/-- Something holds throughout children if it does so throughout each of them. -/
theorem eachThroughout_iff : EachThroughout p children ↔ ∀ entry ∈ children, entry.2.Throughout p := by
  induction children with
  | nil => simp [EachThroughout]
  | cons entry rest ih => simp [EachThroughout, ih]

theorem Fragment.throughout_regular : (Fragment.regular statics children).Throughout p ↔
    p (.regular statics children) ∧ ∀ entry ∈ children, entry.2.Throughout p := by
  rw [Fragment.Throughout, eachThroughout_iff]

theorem Fragment.throughout_comprehension : (Fragment.comprehension statics rows own stream).Throughout p ↔
    p (.comprehension statics rows own stream) := by
  rw [Fragment.Throughout]

theorem Child.throughout_fragment : (Child.fragment f).Throughout p ↔ f.Throughout p := by
  rw [Child.Throughout]

end

/-- The dynamic at the end of a path of gaps. A path does not go on in a component, or in the rows of a comprehension. -/
def Child.at? : (path : List Nat) → Child → Option Child
  | [], c => some c
  | gap :: path, .fragment (.regular _ children) => (Keyed.find? gap children).bind (Child.at? path)
  | _ :: _, _ => none

/-! ## Dynamics one by one -/

/-- The dynamic that an update makes of the one that fills the gap. -/
def Child.mergedWith (current : Option Child) (update : Child) : Except MergeError Child :=
  match current, update with
  | some (.fragment current), .fragment update => (current.merge update).map .fragment
  | _, update => .ok update

/-- The dynamic that fills a gap, filled in from its counterpart. -/
def Child.filledWith (target : Option Child) (source : Child) : Except MergeError Child :=
  match target, source with
  | some (.fragment target), .fragment source => (target.fill source).map .fragment
  | some target, _ => .ok target
  | none, source => .ok source

/-- Merging children goes through the updates as through any that are told by keys. -/
theorem mergeChildren_eq (children : Children) (updates : List (Nat × Child)) :
    mergeChildren children updates = Keyed.updateAll (fun _ => Child.mergedWith) children updates := by
  induction updates generalizing children with
  | nil => rw [mergeChildren, Keyed.updateAll]
  | cons entry rest ih =>
    obtain ⟨gap, update⟩ := entry
    rw [Keyed.updateAll]
    cases update with
    | component id =>
      rw [mergeChildren, ih]
      cases Keyed.find? gap children with
      | none => rfl
      | some current => cases current <;> rfl
    | text s =>
      rw [mergeChildren, ih]
      cases Keyed.find? gap children with
      | none => rfl
      | some current => cases current <;> rfl
    | fragment update =>
      rw [mergeChildren]
      cases Keyed.find? gap children with
      | none => exact ih _
      | some current =>
        cases current with
        | component id => exact ih _
        | text s => exact ih _
        | fragment current =>
          simp only [Child.mergedWith]
          cases current.merge update with
          | error e => rfl
          | ok merged => exact ih _

/-- Filling in children goes through the others as through any that are told by keys; those that cannot be filled in stay
where they are. -/
theorem fillChildren_eq {children : Children} (h : Keyed.Sorted children) (sources : List (Nat × Child)) :
    fillChildren children sources = Keyed.updateAll (fun _ => Child.filledWith) children sources := by
  induction sources generalizing children with
  | nil => rw [fillChildren, Keyed.updateAll]
  | cons entry rest ih =>
    obtain ⟨gap, source⟩ := entry
    rw [Keyed.updateAll]
    cases hfind : Keyed.find? gap children with
    | none =>
      have hrest := ih (Keyed.sorted_insert h gap source)
      cases source <;> · rw [fillChildren, hfind]; exact hrest
    | some target =>
      have hkept : fillChildren children rest =
          Keyed.updateAll (fun _ => Child.filledWith) (Keyed.insert gap target children) rest := by
        rw [Keyed.insert_of_find? h hfind, ih h]
      cases source with
      | component id =>
        rw [fillChildren, hfind]
        cases target <;> exact hkept
      | text s =>
        rw [fillChildren, hfind]
        cases target <;> exact hkept
      | fragment source =>
        rw [fillChildren, hfind]
        cases target with
        | component id => exact hkept
        | text s => exact hkept
        | fragment target =>
          simp only [Child.filledWith]
          cases target.fill source with
          | error e => rfl
          | ok filled => exact ih (Keyed.sorted_insert h gap _)

section

variable {current update : Fragment} {statics : Option Statics} {children : Children}

/-- An update with statics takes the place of the fragment. -/
theorem Fragment.merge_of_statics (h : update.statics.isSome) : current.merge update = .ok update := by
  cases update with
  | regular statics children =>
    obtain ⟨texts, rfl⟩ := Option.isSome_iff_exists.mp h
    rw [Fragment.merge]
  | comprehension statics rows own stream =>
    obtain ⟨texts, rfl⟩ := Option.isSome_iff_exists.mp h
    rw [Fragment.merge]

/-- Of a regular fragment the dynamics are merged. -/
theorem Fragment.merge_regular (statics : Option Statics) (children updates : Children) :
    (Fragment.regular statics children).merge (.regular none updates) =
      (mergeChildren children updates).map (.regular statics) := by
  rw [Fragment.merge]
  cases mergeChildren children updates with
  | ok merged => rfl
  | error e => rfl

/-- Of a comprehension the rows are merged, and the templates that come are put in. -/
theorem Fragment.merge_comprehension (statics : Option Statics) (rows incoming : List Row) (own added : Templates)
    (stream update : Option Stream) :
    (Fragment.comprehension statics rows own stream).merge (.comprehension none incoming added update) =
      (mergeRows rows stream incoming update).map fun merged =>
        .comprehension statics merged.1 (Keyed.insertAll own added) merged.2 := by
  rw [Fragment.merge]
  cases mergeRows rows stream incoming update with
  | ok merged => rfl
  | error e => rfl

/-- Of a regular fragment the dynamics are filled in, and the statics if it has none. -/
theorem Fragment.fill_regular (statics shared : Option Statics) (children sources : Children) :
    (Fragment.regular statics children).fill (.regular shared sources) =
      (fillChildren children sources).map (.regular (statics.or shared)) := by
  rw [Fragment.fill]
  cases fillChildren children sources with
  | ok filled => rfl
  | error e => rfl

end

/-- A component that is filled in takes over the statics, and its dynamics are filled in. -/
theorem Component.fillFrom_eq (c source : Component) :
    c.fillFrom source = (fillChildren c.children source.children).map fun children => ⟨source.statics, children⟩ := by
  rw [Component.fillFrom]
  cases fillChildren c.children source.children with
  | ok children => rfl
  | error e => rfl

/-- What is made of something that succeeds comes from it. -/
theorem exists_of_map_eq_ok {α β : Type} {f : α → β} {x : Except MergeError α} {b : β} (h : x.map f = .ok b) :
    ∃ a, x = .ok a ∧ f a = b := by
  cases x with
  | error e => cases h
  | ok a => exact ⟨a, rfl, Except.ok.inj h⟩

/-- What is made of something fails only with it. -/
theorem eq_error_of_map {α β : Type} {f : α → β} {x : Except MergeError α} {e : MergeError} (h : x.map f = .error e) :
    x = .error e := by
  cases x with
  | error e => exact congrArg _ (Except.error.inj h)
  | ok a => cases h

/-- A dynamic comes out of an update as the update, or as a fragment that comes out of merging. -/
theorem Child.mergedWith_eq_ok {current : Option Child} {update merged : Child}
    (h : Child.mergedWith current update = .ok merged) : merged = update ∨
      ∃ f g fg, current = some (.fragment f) ∧ update = .fragment g ∧ f.merge g = .ok fg ∧ merged = .fragment fg := by
  unfold Child.mergedWith at h
  split at h
  · rename_i f g
    obtain ⟨fg, hfg, rfl⟩ := exists_of_map_eq_ok h
    exact .inr ⟨f, g, fg, rfl, rfl, hfg, rfl⟩
  · cases h
    exact .inl rfl

/-- A dynamic is filled in only if it is missing, or if it is a fragment and its counterpart is one. -/
theorem Child.filledWith_eq_ok {target : Option Child} {source filled : Child}
    (h : Child.filledWith target source = .ok filled) : target = none ∧ filled = source ∨ target = some filled ∨
      ∃ f g fg, target = some (.fragment f) ∧ source = .fragment g ∧ f.fill g = .ok fg ∧ filled = .fragment fg := by
  unfold Child.filledWith at h
  split at h
  · rename_i f g
    obtain ⟨fg, hfg, rfl⟩ := exists_of_map_eq_ok h
    exact .inr (.inr ⟨f, g, fg, rfl, rfl, hfg, rfl⟩)
  · cases h
    exact .inr (.inl rfl)
  · cases h
    exact .inl ⟨rfl, rfl⟩

end LiveMarkup.Rendered
