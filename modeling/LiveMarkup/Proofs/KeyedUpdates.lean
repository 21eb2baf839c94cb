import LiveMarkup.Proofs.KeyedLists

/-!
# Updates of keyed lists

An update of a keyed list goes through keys and gives each of them a new value, made from the one that is found under it
(`updateAll`). Where no key comes twice, what becomes of a key hangs on what was found under it before the whole update
(`exists_of_updateAll`, `error_of_updateAll`), and so the order in which the keys come makes no difference to whether the
update succeeds and what comes out of it (`updateAll_perm`). So it is too where a relation tells what may be made of the keys,
as long as one value stands for all of it (`decides_updateAll`).
-/

namespace LiveMarkup.Keyed

variable {κ α β ε : Type}

/-- Gives each key of a list the value that is made from the one found under it, one after the other. -/
def updateAll [LT κ] [DecidableLT κ] [DecidableEq κ] (f : κ → Option α → β → Except ε α) :
    List (κ × α) → List (κ × β) → Except ε (List (κ × α))
  | m, [] => .ok m
  | m, (k, b) :: rest =>
    match f k (find? k m) b with
    | .ok a => updateAll f (insert k a m) rest
    | .error e => .error e

variable [LinearOrder κ] {f : κ → Option α → β → Except ε α} {m m' : List (κ × α)} {entries order : List (κ × β)} {k : κ}

/-! ## What an update comes to -/

/-- Updates keep the keys in order. -/
theorem sorted_updateAll (hm : Sorted m) (h : updateAll f m entries = .ok m') : Sorted m' := by
  induction entries generalizing m with
  | nil =>
    cases h
    exact hm
  | cons entry rest ih =>
    rw [updateAll] at h
    split at h
    · exact ih (sorted_insert hm _ _) h
    · cases h

/-- A list in key order whose values have a property. -/
def SortedOf (p : α → Prop) (m : List (κ × α)) : Prop :=
  Sorted m ∧ ∀ entry ∈ m, p entry.2

section

variable {p : α → Prop} {a : α}

theorem SortedOf.nil : SortedOf p ([] : List (κ × α)) :=
  ⟨sorted_nil, fun _ hentry => absurd hentry List.not_mem_nil⟩

/-- What is found has the property. -/
theorem SortedOf.of_find? (h : SortedOf p m) (hk : find? k m = some a) : p a :=
  h.2 _ (mem_of_find? hk)

/-- With one more entry that has the property all have it. -/
theorem SortedOf.insert (h : SortedOf p m) (k : κ) (ha : p a) : SortedOf p (insert k a m) := by
  refine ⟨sorted_insert h.1 k a, ?_⟩
  intro entry hentry
  rcases mem_insert hentry with rfl | hentry
  · exact ha
  · exact h.2 entry hentry

/-- A property of the values stays if it is one of all values that are made from such values. -/
theorem SortedOf.updateAll (h : SortedOf p m) (hupdate : updateAll f m entries = .ok m')
    (hf : ∀ k b current a, (k, b) ∈ entries → (∀ c, current = some c → p c) → f k current b = .ok a → p a) :
    SortedOf p m' := by
  induction entries generalizing m with
  | nil =>
    cases hupdate
    exact h
  | cons entry rest ih =>
    rw [Keyed.updateAll] at hupdate
    split at hupdate
    · rename_i a ha
      have hnew : p a := hf _ _ _ a List.mem_cons_self (fun c hc => h.of_find? hc) ha
      exact ih (h.insert _ hnew) hupdate fun k b current a hmem => hf k b current a (List.mem_cons_of_mem _ hmem)
    · cases hupdate

end

/-- A key that is not updated keeps its value. -/
theorem find?_of_updateAll (h : updateAll f m entries = .ok m') (hk : find? k entries = none) :
    find? k m' = find? k m := by
  induction entries generalizing m with
  | nil =>
    cases h
    rfl
  | cons entry rest ih =>
    obtain ⟨j, b⟩ := entry
    rw [find?] at hk
    split at hk
    · cases hk
    · rename_i hne
      rw [updateAll] at h
      split at h
      · rw [ih h hk, find?_insert, if_neg (Ne.symm hne)]
      · cases h

/-- A key that is updated has the value that is made from the one it had before. -/
theorem exists_of_updateAll (hkeys : (entries.map Prod.fst).Nodup) (h : updateAll f m entries = .ok m') {b : β}
    (hk : find? k entries = some b) : ∃ a, f k (find? k m) b = .ok a ∧ find? k m' = some a := by
  induction entries generalizing m with
  | nil => cases hk
  | cons entry rest ih =>
    obtain ⟨j, b'⟩ := entry
    rw [List.map_cons, List.nodup_cons] at hkeys
    rw [updateAll] at h
    split at h
    · rename_i a ha
      rw [find?] at hk
      split at hk
      · rename_i hj
        cases hk
        subst hj
        have hrest : find? j rest = none := by
          refine find?_eq_none_iff.mpr ?_
          intro entry hentry heq
          exact hkeys.1 (List.mem_map.mpr ⟨entry, hentry, heq⟩)
        exact ⟨a, ha, by rw [find?_of_updateAll h hrest, find?_insert, if_pos rfl]⟩
      · rename_i hne
        have := ih hkeys.2 h hk
        rwa [find?_insert, if_neg (Ne.symm hne)] at this
    · cases h

/-- An update fails at a key, on what was found under it before. -/
theorem error_of_updateAll {e : ε} (hkeys : (entries.map Prod.fst).Nodup) (h : updateAll f m entries = .error e) :
    ∃ k b, (k, b) ∈ entries ∧ f k (find? k m) b = .error e := by
  induction entries generalizing m with
  | nil => cases h
  | cons entry rest ih =>
    obtain ⟨j, b'⟩ := entry
    rw [List.map_cons, List.nodup_cons] at hkeys
    rw [updateAll] at h
    split at h
    · obtain ⟨k, b, hmem, hk⟩ := ih hkeys.2 h
      have hne : k ≠ j := fun heq => hkeys.1 (List.mem_map.mpr ⟨(k, b), hmem, heq⟩)
      rw [find?_insert, if_neg hne] at hk
      exact ⟨k, b, List.mem_cons_of_mem _ hmem, hk⟩
    · rename_i e' he
      cases h
      exact ⟨j, b', List.mem_cons_self, he⟩

/-- An update leads to a list in which each key has its new value and the others have the values that they had. -/
theorem updateAll_eq_ok (hm : Sorted m) (hm' : Sorted m') (hkeys : (entries.map Prod.fst).Nodup)
    (hnew : ∀ k b, find? k entries = some b → ∃ a, f k (find? k m) b = .ok a ∧ find? k m' = some a)
    (hkept : ∀ k, find? k entries = none → find? k m' = find? k m) : updateAll f m entries = .ok m' := by
  cases hupdate : updateAll f m entries with
  | error e =>
    obtain ⟨k, b, hmem, hk⟩ := error_of_updateAll hkeys hupdate
    obtain ⟨a, ha, -⟩ := hnew k b ((find?_eq_some_iff_of_nodup hkeys).mpr hmem)
    cases hk.symm.trans ha
  | ok updated =>
    refine congrArg _ (eq_of_find?_eq (sorted_updateAll hm hupdate) hm' fun k => ?_)
    cases hk : find? k entries with
    | none => rw [find?_of_updateAll hupdate hk, hkept k hk]
    | some b =>
      obtain ⟨a, ha, hfound⟩ := exists_of_updateAll hkeys hupdate hk
      obtain ⟨a', ha', hfound'⟩ := hnew k b hk
      cases ha.symm.trans ha'
      rw [hfound, hfound']

/-- Where an update fails, no update by the same values gets past the key. -/
theorem not_ok_of_updateAll_error {first second : List (κ × β)} {e : ε} (hfirst : (first.map Prod.fst).Nodup)
    (hsecond : (second.map Prod.fst).Nodup) (hsame : ∀ k, find? k first = find? k second)
    (h : updateAll f m first = .error e) : updateAll f m second ≠ .ok m' := by
  intro hok
  obtain ⟨k, b, hmem, hk⟩ := error_of_updateAll hfirst h
  have hb : find? k second = some b := (hsame k).symm.trans ((find?_eq_some_iff_of_nodup hfirst).mpr hmem)
  obtain ⟨a, ha, -⟩ := exists_of_updateAll hsecond hok hb
  cases hk.symm.trans ha

/-- The order in which keys are updated decides at most at which of them an update fails. -/
theorem updateAll_perm (hm : Sorted m) (hkeys : (entries.map Prod.fst).Nodup) (hperm : order.Perm entries) :
    (updateAll f m order).toOption = (updateAll f m entries).toOption := by
  have hkeys' : (order.map Prod.fst).Nodup := (hperm.map Prod.fst).nodup_iff.mpr hkeys
  have hfind : ∀ k, find? k order = find? k entries := fun k => find?_perm hperm hkeys'
  cases horder : updateAll f m order with
  | error e =>
    cases hentries : updateAll f m entries with
    | error e' => rfl
    | ok m' => exact absurd hentries (not_ok_of_updateAll_error hkeys' hkeys hfind horder)
  | ok m₁ =>
    cases hentries : updateAll f m entries with
    | error e => exact absurd horder (not_ok_of_updateAll_error hkeys hkeys' (fun k => (hfind k).symm) hentries)
    | ok m₂ =>
      refine congrArg some (eq_of_find?_eq (sorted_updateAll hm horder) (sorted_updateAll hm hentries) fun k => ?_)
      cases hk : find? k entries with
      | none => rw [find?_of_updateAll horder ((hfind k).trans hk), find?_of_updateAll hentries hk]
      | some b =>
        obtain ⟨a, ha, h₁⟩ := exists_of_updateAll hkeys' horder ((hfind k).trans hk)
        obtain ⟨a', ha', h₂⟩ := exists_of_updateAll hkeys hentries hk
        cases ha.symm.trans ha'
        rw [h₁, h₂]

/-! ## Outcomes that a relation tells of -/

/-- Of the outcomes that there may be, one stands for all: it is one of them, and the others are the same value, or they are
all errors. -/
def Decides (may : Except ε α → Prop) (x : Except ε α) : Prop :=
  may x ∧ ∀ outcome, may outcome → outcome.toOption = x.toOption

/-- What giving keys new values, one after the other, may come to. -/
inductive UpdatesTo [LT κ] [DecidableLT κ] [DecidableEq κ] (g : κ → Option α → β → Except ε α → Prop) :
    List (κ × α) → List (κ × β) → Except ε (List (κ × α)) → Prop
  | done {m : List (κ × α)} : UpdatesTo g m [] (.ok m)
  | next {m : List (κ × α)} {k : κ} {a : α} {b : β} {rest : List (κ × β)} {outcome : Except ε (List (κ × α))}
      (hg : g k (find? k m) b (.ok a)) (h : UpdatesTo g (insert k a m) rest outcome) :
      UpdatesTo g m ((k, b) :: rest) outcome
  | stop {m : List (κ × α)} {k : κ} {b : β} {rest : List (κ × β)} {e : ε} (hg : g k (find? k m) b (.error e)) :
      UpdatesTo g m ((k, b) :: rest) (.error e)

omit [LinearOrder κ] in
/-- An outcome that may be is the one that is. -/
theorem Decides.eq_ok {may : Except ε α → Prop} {x : Except ε α} (h : Decides may x) {a : α} (ha : may (.ok a)) :
    x = .ok a := by
  have := h.2 _ ha
  cases x with
  | error e => cases this
  | ok b => exact congrArg _ (Option.some.inj this).symm

omit [LinearOrder κ] in
/-- What succeeds cannot fail. -/
theorem Decides.not_error {may : Except ε α → Prop} {a : α} (h : Decides may (.ok a)) {e : ε} : ¬ may (.error e) := by
  intro he
  cases h.2 _ he

omit [LinearOrder κ] in
theorem toOption_map {α' : Type} (f : α → α') (x : Except ε α) : (x.map f).toOption = x.toOption.map f := by
  cases x <;> rfl

section

variable {g : κ → Option α → β → Except ε α → Prop} {p : α → Prop}

/-- If at each key one value stands for all that may be made, so it is for an update in the order given. -/
theorem decides_updateAll_of_order (hm : SortedOf p m)
    (hg : ∀ k b current, (k, b) ∈ order → (∀ c, current = some c → p c) →
      Decides (g k current b) (f k current b) ∧ ∀ a, f k current b = .ok a → p a) :
    Decides (UpdatesTo g m order) (updateAll f m order) := by
  induction order generalizing m with
  | nil =>
    refine ⟨.done, ?_⟩
    rintro outcome ⟨⟩
    rfl
  | cons entry rest ih =>
    obtain ⟨k, b⟩ := entry
    obtain ⟨hk, hp⟩ := hg k b (find? k m) List.mem_cons_self fun c hc => hm.of_find? hc
    rw [updateAll]
    cases ha : f k (find? k m) b with
    | error e =>
      rw [ha] at hk
      refine ⟨.stop hk.1, ?_⟩
      intro outcome h
      cases h with
      | next hok _ => cases hk.eq_ok hok
      | stop _ => rfl
    | ok a =>
      rw [ha] at hk
      obtain ⟨hmay, honly⟩ := ih (hm.insert k (hp a ha)) fun k b current hmem => hg k b current (List.mem_cons_of_mem _ hmem)
      refine ⟨.next hk.1 hmay, ?_⟩
      intro outcome h
      cases h with
      | next hok h =>
        cases hk.eq_ok hok
        exact honly outcome h
      | stop herror => exact absurd herror hk.not_error

/-- Keys may be updated in whatever order if at each of them one value stands for all that may be made. -/
theorem decides_updateAll (hm : SortedOf p m) (hkeys : (entries.map Prod.fst).Nodup)
    (hg : ∀ k b current, (k, b) ∈ entries → (∀ c, current = some c → p c) →
      Decides (g k current b) (f k current b) ∧ ∀ a, f k current b = .ok a → p a) :
    Decides (fun outcome => ∃ order, order.Perm entries ∧ UpdatesTo g m order outcome) (updateAll f m entries) := by
  refine ⟨⟨entries, .refl entries, (decides_updateAll_of_order hm hg).1⟩, ?_⟩
  rintro outcome ⟨order, hperm, h⟩
  have hdecides : Decides (UpdatesTo g m order) (updateAll f m order) :=
    decides_updateAll_of_order hm fun k b current hmem => hg k b current (hperm.mem_iff.mp hmem)
  rw [hdecides.2 outcome h, updateAll_perm hm.1 hkeys hperm]

end

end LiveMarkup.Keyed
