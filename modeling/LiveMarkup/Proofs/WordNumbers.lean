import Mathlib.Data.List.Basic
import LiveMarkup.Json.Reader

/-!
# Numbers that are read fit 64 bits

A natural number is read as such only if it fits 64 bits (`Json.Number.fits_of_ofSpelling?`); larger ones are read as
doubles. So no value that is read holds a larger one, wherever it lies in it, nor do the items of a text that breaks off
(`Json.Items.fits_ofText`).
-/

namespace LiveMarkup.Json

/-! ## Numbers -/

namespace Number

/-- A natural number is one of 64 bits. -/
def Fits (n : Number) : Prop :=
  ∀ k : Nat, n = .integer k → k < wordLimit

/-- What is gathered fits 64 bits if it began so. -/
theorem gather_lt {n : Nat} (h : n < wordLimit) (digits : List Char) : (gather n digits).1 < wordLimit := by
  induction digits generalizing n with
  | nil => exact h
  | cons c rest ih =>
    rw [gather]
    by_cases hlt : n * 10 + digitValue c < wordLimit
    · simp only [if_pos hlt]
      exact ih hlt
    · simp only [if_neg hlt]
      exact h

/-- A double fits, with either sign. -/
theorem fits_signed (negative : Bool) (f : Float) : (signed negative f).Fits := by
  intro k hk
  cases hk

/-- A number that is spelled fits, since what does not is read as a double. -/
theorem fits_of_ofSpelling? {s : Spelling} {n : Number} (h : ofSpelling? s = some n) : n.Fits := by
  have hgather : (gather 0 s.whole).1 < wordLimit := gather_lt (by decide) s.whole
  unfold ofSpelling? at h
  simp only at h
  split at h
  · split at h
    · split at h
      · rename_i hpos
        cases h
        intro k hk
        have hneg := Number.integer.inj hk
        omega
      · cases h
        exact fits_signed _ _
    · cases h
      intro k hk
      have heq := Number.integer.inj hk
      omega
  · obtain ⟨f, _, rfl⟩ := Option.map_eq_some_iff.mp h
    exact fits_signed _ _

/-- A number that is read fits. -/
theorem fits_of_number? {s rest : List Char} {n : Number} (h : number? s = some (n, rest)) : n.Fits := by
  unfold number? at h
  split at h
  · cases h
  · obtain ⟨n', hn, he⟩ := Option.map_eq_some_iff.mp h
    cases he
    exact fits_of_ofSpelling? hn

end Number

/-! ## Tokens -/

/-- A token that is a number fits. -/
def Token.Fits : Token → Prop
  | number n => n.Fits
  | _ => True

/-- A token that is no number fits. -/
theorem Token.fits_punctuation? {c : Char} {t : Token} (h : punctuation? c = some t) : t.Fits := by
  unfold punctuation? at h
  repeat' split at h
  all_goals cases h
  all_goals trivial

/-- A word fits. -/
theorem Token.fits_word? {s rest : List Char} {t : Token} (h : word? s = some (t, rest)) : t.Fits := by
  unfold word? at h
  split at h
  · cases h
    trivial
  · split at h
    · cases h
      trivial
    · obtain ⟨_, _, he⟩ := Option.map_eq_some_iff.mp h
      cases he
      trivial

/-- A token that is read fits. -/
theorem Token.fits_token? {s rest : List Char} {t : Token} (h : token? s = some (t, rest)) : t.Fits := by
  unfold token? at h
  split at h
  · cases h
  · split at h
    · rename_i hp
      cases h
      exact fits_punctuation? hp
    · split at h
      · obtain ⟨_, _, he⟩ := Option.map_eq_some_iff.mp h
        cases he
        trivial
      · split at h
        · rename_i hw
          cases h
          exact fits_word? hw
        · obtain ⟨⟨n, _⟩, hn, he⟩ := Option.map_eq_some_iff.mp h
          cases he
          exact Number.fits_of_number? hn

/-- All tokens that are read fit. -/
theorem fits_scan (s : List Char) : ∀ t ∈ (scan s).tokens, t.Fits := by
  fun_induction scan s with
  | case1 => exact List.forall_mem_nil _
  | case2 => exact List.forall_mem_nil _
  | case3 s c rest _ t after hread more ih => exact List.forall_mem_cons.mpr ⟨Token.fits_token? hread, ih⟩

/-! ## Values -/

mutual

/-- All natural numbers in the value fit. -/
def Fits : Json → Prop
  | null => True
  | bool _ => True
  | number n => n.Fits
  | string _ => True
  | array items => FitsItems items
  | object members => FitsMembers members

/-- The items all fit. -/
def FitsItems : List Json → Prop
  | [] => True
  | item :: rest => item.Fits ∧ FitsItems rest

/-- The values of the members all fit. -/
def FitsMembers : List (String × Json) → Prop
  | [] => True
  | (_, value) :: rest => value.Fits ∧ FitsMembers rest

end

/-- A list fits if each of its values does. -/
theorem fits_array {items : List Json} : (array items).Fits ↔ ∀ item ∈ items, item.Fits := by
  rw [Fits]
  induction items with
  | nil => simp [FitsItems]
  | cons item rest ih => simp [FitsItems, ih]

/-- An object fits if the value of each of its members does. -/
theorem fits_object {members : List (String × Json)} : (object members).Fits ↔ ∀ m ∈ members, m.2.Fits := by
  rw [Fits]
  induction members with
  | nil => simp [FitsMembers]
  | cons m rest ih =>
    obtain ⟨key, v⟩ := m
    simp [FitsMembers, ih]

/-! ## Reading -/

/-- What an array or object holds so far fits. -/
def Frame.Fits : Frame → Prop
  | array items => ∀ item ∈ items, item.Fits
  | object members _ => ∀ m ∈ members, m.2.Fits

namespace Step

/-- Whatever a token leads to, what has been read so far fits. -/
def Fits : Step → Prop
  | next frames _ => ∀ f ∈ frames, f.Fits
  | done v => v.Fits
  | misplaced => True

variable {frames : List Frame} {t : Token} {v : Json}

/-- A value that fits is delivered to what is open. -/
theorem fits_deliver (h : ∀ f ∈ frames, f.Fits) (hv : v.Fits) : (deliver frames v).Fits := by
  cases frames with
  | nil => exact hv
  | cons f outer =>
    obtain ⟨hf, houter⟩ := List.forall_mem_cons.mp h
    cases f with
    | array items => exact List.forall_mem_cons.mpr ⟨List.forall_mem_cons.mpr ⟨hv, hf⟩, houter⟩
    | object members key => exact List.forall_mem_cons.mpr ⟨List.forall_mem_cons.mpr ⟨hv, hf⟩, houter⟩

/-- A list or an object that is begun fits with all that are open. -/
theorem fits_begin (h : ∀ f ∈ frames, f.Fits) {f : Frame} (hf : f.Fits) (expects : Expects) :
    (begin frames f expects).Fits := by
  unfold begin
  split
  · exact List.forall_mem_cons.mpr ⟨hf, h⟩
  · trivial

/-- Where a value is expected a token that fits leaves all fitting. -/
theorem fits_onValue (h : ∀ f ∈ frames, f.Fits) (ht : t.Fits) : (onValue frames t).Fits := by
  cases t with
  | null => exact fits_deliver h trivial
  | bool b => exact fits_deliver h trivial
  | number n => exact fits_deliver h ht
  | string s => exact fits_deliver h trivial
  | openArray => exact fits_begin h (f := .array []) (List.forall_mem_nil _) _
  | openObject => exact fits_begin h (f := .object [] "") (List.forall_mem_nil _) _
  | _ => trivial

/-- Where a key is expected a token leaves all fitting. -/
theorem fits_onKey (h : ∀ f ∈ frames, f.Fits) (t : Token) : (onKey frames t).Fits := by
  unfold onKey
  split
  · obtain ⟨hf, houter⟩ := List.forall_mem_cons.mp h
    exact List.forall_mem_cons.mpr ⟨hf, houter⟩
  · trivial

/-- Where an end is expected a token leaves all fitting. -/
theorem fits_onEnd (h : ∀ f ∈ frames, f.Fits) (t : Token) : (onEnd frames t).Fits := by
  unfold onEnd
  split
  · obtain ⟨hf, houter⟩ := List.forall_mem_cons.mp h
    exact fits_deliver houter (fits_array.mpr fun item hitem => hf item (List.mem_reverse.mp hitem))
  · obtain ⟨hf, houter⟩ := List.forall_mem_cons.mp h
    exact fits_deliver houter (fits_object.mpr fun m hm => hf m (List.mem_reverse.mp hm))
  · trivial

/-- Where a separator is expected a token leaves all fitting. -/
theorem fits_onSeparator (h : ∀ f ∈ frames, f.Fits) (t : Token) : (onSeparator frames t).Fits := by
  unfold onSeparator
  split
  · exact h
  · exact h
  · exact fits_onEnd h t

/-- What has been read fits after one more token. -/
theorem fits_ofToken (h : ∀ f ∈ frames, f.Fits) (ht : t.Fits) (expects : Expects) : (ofToken frames expects t).Fits := by
  cases expects with
  | value => exact fits_onValue h ht
  | itemOrEnd =>
    rw [ofToken]
    by_cases hend : t = .closeArray
    · rw [if_pos hend]
      exact fits_onEnd h t
    · rw [if_neg hend]
      exact fits_onValue h ht
  | keyOrEnd =>
    rw [ofToken]
    by_cases hend : t = .closeObject
    · rw [if_pos hend]
      exact fits_onEnd h t
    · rw [if_neg hend]
      exact fits_onKey h t
  | key => exact fits_onKey h t
  | colon =>
    rw [ofToken]
    by_cases hcolon : t = .colon
    · rw [if_pos hcolon]
      exact h
    · rw [if_neg hcolon]
      trivial
  | separator => exact fits_onSeparator h t

end Step

/-- Whether the value is complete or not, what has been read fits. -/
def Reading.Fits : Reading → Prop
  | value v _ => v.Fits
  | broken frames => ∀ f ∈ frames, f.Fits

/-- What has been read fits after any tokens. -/
theorem Reading.fits_run {frames : List Frame} {expects : Expects} {tokens : List Token} (h : ∀ f ∈ frames, f.Fits)
    (htokens : ∀ t ∈ tokens, t.Fits) : (run frames expects tokens).Fits := by
  induction tokens generalizing frames expects with
  | nil => exact h
  | cons t rest ih =>
    obtain ⟨ht, hrest⟩ := List.forall_mem_cons.mp htokens
    have hstep := Step.fits_ofToken h ht expects
    rw [run]
    split
    · rename_i hnext
      rw [hnext] at hstep
      exact ih hstep hrest
    · rename_i hdone
      rw [hdone] at hstep
      exact hstep
    · exact h

/-- The items that are read from a text fit, whether the text is an array or breaks off. -/
theorem Items.fits_ofText (text : List Char) : ∀ item ∈ (ofText text).items, item.Fits := by
  have hread : (Reading.run [] .value (scan text).tokens).Fits := Reading.fits_run (List.forall_mem_nil _) (fits_scan text)
  unfold ofText
  simp only
  split
  · rename_i items rest hvalue
    rw [hvalue] at hread
    exact fits_array.mp hread
  · exact List.forall_mem_nil _
  · rename_i frames hbroken
    rw [hbroken] at hread
    split
    · rename_i items hlast
      have hframe := hread _ (List.mem_of_getLast? hlast)
      intro item hitem
      exact hframe item (List.mem_reverse.mp hitem)
    · exact List.forall_mem_nil _

end LiveMarkup.Json
