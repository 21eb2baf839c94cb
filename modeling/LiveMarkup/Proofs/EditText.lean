import LiveMarkup.Edit.Json
import LiveMarkup.Proofs.JsonText
import LiveMarkup.Proofs.Listing

/-!
# Edits are read back

Edits that are written as JSON are read back as they were (`Edit.decode_encode`), whatever of their fields is left out because
it is empty. Attributes, records and trees are read back on the way. The names must be legal, since reading checks them, and
the numbers must fit 64 bits, since reading knows no larger ones.
-/

namespace LiveMarkup

open Json
open Json.Number (wordLimit)

namespace Json

/-- A list whose items are read back is read back. -/
theorem mapM_map {α : Type} {read : Json → Except ReadError α} {write : α → Json} {l : List α}
    (h : ∀ a ∈ l, read (write a) = .ok a) : (l.map write).mapM read = .ok l := by
  induction l with
  | nil => rfl
  | cons a l ih =>
    have hfirst := h a List.mem_cons_self
    have hrest := ih fun b hb => h b (List.mem_cons_of_mem a hb)
    rw [List.map_cons, List.mapM_cons, hfirst, hrest]
    rfl

/-- A list is plain if each of its values is. -/
theorem plainItems_iff {limit : Nat} {items : List Json} : PlainItems limit items ↔ ∀ item ∈ items, item.Plain limit := by
  induction items with
  | nil => simp [PlainItems]
  | cons item rest ih => simp [PlainItems, ih]

/-- An object is plain if the value of each of its members is. -/
theorem plainMembers_iff {limit : Nat} {members : List (String × Json)} :
    PlainMembers limit members ↔ ∀ m ∈ members, m.2.Plain limit := by
  induction members with
  | nil => simp [PlainMembers]
  | cons m rest ih =>
    obtain ⟨key, v⟩ := m
    simp [PlainMembers, ih]

/-- A list is plain if its items are. -/
theorem plain_map {α : Type} {limit : Nat} {write : α → Json} {l : List α} (h : ∀ a ∈ l, (write a).Plain limit) :
    (array (l.map write)).Plain (limit + 1) := by
  refine ⟨limit, rfl, plainItems_iff.mpr ?_⟩
  intro item hitem
  obtain ⟨a, ha, rfl⟩ := List.mem_map.mp hitem
  exact h a ha

/-- A number of one word is plain. -/
theorem plain_ofNat {limit n : Nat} (h : n < wordLimit) : (ofNat n).Plain limit :=
  ⟨n, rfl, h⟩

/-! ### Members of objects -/

section Members

variable {α : Type} {read : Json → Except ReadError α} {key : String} {v : Json} {a : α}

/-- No member has the key. -/
def Lacks (key : String) (members : List (String × Json)) : Prop :=
  ∀ m ∈ members, m.1 ≠ key

@[simp] theorem lacks_nil : Lacks key [] := fun m hm => by cases hm

@[simp] theorem lacks_cons {m : String × Json} {members : List (String × Json)} :
    Lacks key (m :: members) ↔ m.1 ≠ key ∧ Lacks key members :=
  List.forall_mem_cons

@[simp] theorem lacks_append {before after : List (String × Json)} :
    Lacks key (before ++ after) ↔ Lacks key before ∧ Lacks key after :=
  List.forall_mem_append

/-- A member that may be left out has its own key. -/
@[simp] theorem lacks_memberUnless {empty : Bool} {other : String} (h : other ≠ key) :
    Lacks key (memberUnless empty other v) := by
  cases empty <;> simp [memberUnless, h]

/-- No member has a key that they lack. -/
theorem Lacks.filter_eq_nil {members : List (String × Json)} (h : Lacks key members) :
    members.filter (fun m => m.1 = key) = [] := by
  refine List.filter_eq_nil_iff.mpr ?_
  intro m hm
  rw [decide_eq_true_eq]
  exact h m hm

/-- Only what follows members with other keys is looked at. -/
theorem Lacks.member?_append {before : List (String × Json)} (h : Lacks key before) (after : List (String × Json)) :
    member? key (before ++ after) = member? key after := by
  rw [member?, member?, List.filter_append, h.filter_eq_nil, List.nil_append]

/-- A key that the members lack is not found. -/
theorem Lacks.member?_eq {members : List (String × Json)} (h : Lacks key members) : member? key members = .ok none := by
  rw [member?, h.filter_eq_nil]

/-- A key that the others lack is found in the member that has it. -/
theorem Lacks.member?_cons {after : List (String × Json)} (h : Lacks key after) :
    member? key ((key, v) :: after) = .ok (some v) := by
  have hfilter : ((key, v) :: after).filter (fun m => m.1 = key) = [(key, v)] := by
    rw [List.filter_cons, if_pos (decide_eq_true_eq.mpr rfl), h.filter_eq_nil]
  rw [member?, hfilter]

/-- A member that may be left out is there only if there is something to say. -/
theorem mem_memberUnless {empty : Bool} {m : String × Json} :
    m ∈ memberUnless empty key v ↔ empty = false ∧ m = (key, v) := by
  cases empty <;> simp [memberUnless]

/-- A field is read that stands among others. -/
theorem required_split (before after : List (String × Json)) (hread : read v = .ok a) (hbefore : Lacks key before)
    (hafter : Lacks key after) : required read key (before ++ (key, v) :: after) = .ok a := by
  rw [required, hbefore.member?_append, hafter.member?_cons]
  exact hread

/-- A field is read that is left out when it is empty. -/
theorem optional_split (before after : List (String × Json)) {absent : α} {empty : Bool} (hread : read v = .ok a)
    (hempty : empty = true → a = absent) (hbefore : Lacks key before) (hafter : Lacks key after) :
    optional read absent key (before ++ (memberUnless empty key v ++ after)) = .ok a := by
  rw [optional, hbefore.member?_append]
  cases empty with
  | true =>
    have hmember : member? key (memberUnless true key v ++ after) = .ok none := hafter.member?_eq
    rw [hmember, hempty rfl]
    rfl
  | false =>
    have hmember : member? key (memberUnless false key v ++ after) = .ok (some v) := hafter.member?_cons
    rw [hmember]
    exact hread

end Members

end Json

namespace Attribute

/-- An attribute is read back, also one without a namespace. -/
theorem ofJson_toJson (a : Attribute) : ofJson a.toJson = .ok a := by
  obtain ⟨⟨space, base⟩, value⟩ := a
  let front := memberUnless space.isEmpty "namespace" (.string space)
  let members := front ++ [("name", .string base), ("value", .string value)]
  have hspace : optional toString? "" "namespace" members = .ok space :=
    optional_split [] _ rfl String.isEmpty_iff.mp (by simp) (by simp)
  have hbase : required toString? "name" members = .ok base :=
    required_split front _ rfl (by simp [front]) (by simp)
  have hvalue : optional toString? "" "value" members = .ok value := by
    have hlast : members = (front ++ [("name", .string base)]) ++ (memberUnless false "value" (.string value) ++ []) := by
      simp [members, memberUnless]
    rw [hlast]
    exact optional_split _ [] rfl Bool.noConfusion (by simp [front]) (by simp)
  have hmembers : ofMembers members = .ok ⟨⟨space, base⟩, value⟩ := by
    rw [ofMembers, hspace, hbase, hvalue]
    rfl
  exact hmembers

/-- What is written for an attribute is plain, one level deep. -/
theorem plain_toJson (limit : Nat) (a : Attribute) : a.toJson.Plain (limit + 1) := by
  refine ⟨limit, rfl, plainMembers_iff.mpr ?_⟩
  intro m hm
  simp only [List.mem_append, List.mem_cons, List.not_mem_nil, or_false, mem_memberUnless] at hm
  rcases hm with ⟨_, rfl⟩ | rfl | rfl <;> trivial

end Attribute

namespace Record

/-- A record is read back, also one of which fields are left out. -/
theorem ofJson_toJson (numbered : Bool) (r : Record) : ofJson numbered r.toJson = .ok r := by
  cases r with
  | leaf text =>
    have hkind : required (kindOfJson numbered) "kind" [("kind", .string "leaf"), ("text", .string text)] = .ok false :=
      required_split [] _ rfl (by simp) (by simp)
    have htext : required toString? "text" [("kind", .string "leaf"), ("text", .string text)] = .ok text :=
      required_split [("kind", .string "leaf")] [] rfl (by simp) (by simp)
    rw [toJson, ofJson, hkind]
    simp only [ofMembers, htext]
    rfl
  | element name attributes children =>
    obtain ⟨space, base⟩ := name
    let kind : List (String × Json) := [("kind", .string "element")]
    let front := memberUnless space.isEmpty "namespace" (.string space)
    let tag : List (String × Json) := [("tag", .string base)]
    let middle := memberUnless attributes.isEmpty "attributes" (.array (attributes.map Attribute.toJson))
    let last := memberUnless (children == 0) "children" (.ofNat children)
    let members := kind ++ (front ++ (tag ++ (middle ++ (last ++ []))))
    have hwritten : (element ⟨space, base⟩ attributes children).toJson = .object members := by
      simp only [toJson, members, kind, front, tag, middle, last, List.append_assoc, List.append_nil]
    have hkind : required (kindOfJson numbered) "kind" members = .ok true :=
      required_split [] _ rfl (by simp) (by simp [front, tag, middle, last])
    have hspace : optional toString? "" "namespace" members = .ok space :=
      optional_split kind _ rfl String.isEmpty_iff.mp (by simp [kind]) (by simp [tag, middle, last])
    have hbase : required toString? "tag" members = .ok base := by
      have hsplit : members = (kind ++ front) ++ ("tag", .string base) :: (middle ++ (last ++ [])) := by
        simp only [members, tag, List.append_assoc, List.cons_append, List.nil_append]
      rw [hsplit]
      exact required_split _ _ rfl (by simp [kind, front]) (by simp [middle, last])
    have hattributes : optional (toList? Attribute.ofJson) [] "attributes" members = .ok attributes := by
      have hsplit : members = (kind ++ (front ++ tag)) ++ (middle ++ (last ++ [])) := by
        simp only [members, List.append_assoc]
      have hread : toList? Attribute.ofJson (.array (attributes.map Attribute.toJson)) = .ok attributes :=
        mapM_map fun a _ => Attribute.ofJson_toJson a
      rw [hsplit]
      exact optional_split _ _ hread List.isEmpty_iff.mp (by simp [kind, front, tag]) (by simp [last])
    have hchildren : optional toNat? 0 "children" members = .ok children := by
      have hsplit : members = (kind ++ (front ++ (tag ++ middle))) ++ (last ++ []) := by
        simp only [members, List.append_assoc]
      rw [hsplit]
      exact optional_split _ [] rfl eq_of_beq (by simp [kind, front, tag, middle]) (by simp)
    rw [hwritten, ofJson, hkind]
    simp only [ofMembers, hspace, hbase, hattributes, hchildren]
    rfl

/-- What is written for a record is plain, three levels deep, if its count fits a word. -/
theorem plain_toJson (limit : Nat) {r : Record} (h : r.children < wordLimit) : r.toJson.Plain (limit + 3) := by
  cases r with
  | leaf text => exact ⟨limit + 2, rfl, trivial, trivial, trivial⟩
  | element name attributes children =>
    have hattributes : (array (attributes.map Attribute.toJson)).Plain (limit + 2) :=
      plain_map fun a _ => a.plain_toJson limit
    have hchildren : (ofNat children).Plain (limit + 2) := plain_ofNat h
    refine ⟨limit + 2, rfl, plainMembers_iff.mpr ?_⟩
    intro m hm
    simp only [List.mem_append, List.mem_singleton, mem_memberUnless] at hm
    rcases hm with (((rfl | ⟨_, rfl⟩) | rfl) | ⟨_, rfl⟩) | ⟨_, rfl⟩
    · trivial
    · trivial
    · trivial
    · exact hattributes
    · exact hchildren

end Record

namespace Tree

/-- A tree is read back from inside an edit. -/
theorem ofJson_toJson (t : Tree) : ofJson t.toJson = .ok t := by
  have hrecords : toList? (Record.ofJson true) t.toJson = .ok t.records :=
    mapM_map fun r _ => Record.ofJson_toJson true r
  rw [ofJson, hrecords]
  have hread : Record.readTree t.records = .ok t := by
    rw [Record.readTree, Record.read_records]
  exact hread

/-- What is written for a tree is plain, four levels deep, if its counts fit a word. -/
theorem plain_toJson (limit : Nat) {t : Tree} (h : ∀ r ∈ t.records, r.children < wordLimit) :
    t.toJson.Plain (limit + 4) :=
  plain_map fun r hr => Record.plain_toJson limit (h r hr)

end Tree

/-- A path is read back. -/
theorem Path.read_toJson (p : Path) : toList? toNat? p.toJson = .ok p :=
  mapM_map fun _ _ => rfl

namespace Edit

/-- The numbers that an edit is written with: the positions of its path, and the numbers of children of the nodes that it
brings. -/
def numbers : Edit → List Nat
  | setAttributes path _ => path
  | setText path _ => path
  | append parent tree => parent ++ tree.records.map Record.children
  | remove path => path
  | replace path tree => path ++ tree.records.map Record.children

/-- An edit is read back from its verb and its fields. -/
theorem ofJson_object {verb : Json} {kind : Kind} {members : List (String × Json)} {draft : Draft} {e : Edit}
    (hverb : Kind.ofJson verb = .ok kind) (hmembers : Lacks "op" members)
    (hdraft : Draft.empty.putAll (members.filterMap fun m => (Keyed.find? m.1 kind.fields).map (·, m.2)) = .ok draft)
    (hfinish : draft.finish kind = .ok e) : ofJson (.object (("op", verb) :: members)) = .ok e := by
  have hop : required Kind.ofJson "op" (("op", verb) :: members) = .ok kind :=
    required_split [] members hverb lacks_nil hmembers
  have hskip : (("op", verb) :: members).filterMap (fun m => (Keyed.find? m.1 kind.fields).map (·, m.2)) =
      members.filterMap fun m => (Keyed.find? m.1 kind.fields).map (·, m.2) := by
    cases kind <;> rfl
  have hread := (congrArg Draft.empty.putAll hskip).trans hdraft
  rw [ofJson, hop]
  have hfinished : (do let draft ← Except.ok draft; draft.finish kind) = .ok e := hfinish
  exact (congrArg (fun fields => fields >>= fun draft => draft.finish kind) hread).trans hfinished

/-- An edit is read back. -/
theorem ofJson_toJson (e : Edit) : ofJson e.toJson = .ok e := by
  cases e with
  | setAttributes path attributes =>
    have hattributes : toList? Attribute.ofJson (.array (attributes.map Attribute.toJson)) = .ok attributes :=
      mapM_map fun a _ => a.ofJson_toJson
    have hdraft : Draft.empty.putAll [(.path, path.toJson), (.attributes, .array (attributes.map Attribute.toJson))] =
        .ok ⟨some path, some attributes, none, none⟩ := by
      simp [Draft.putAll, Draft.put, Draft.has, Draft.empty, path.read_toJson, hattributes, bind, Except.bind]
    exact ofJson_object rfl (by simp) hdraft rfl
  | setText path text =>
    have hdraft : Draft.empty.putAll [(.path, path.toJson), (.text, .string text)] =
        .ok ⟨some path, none, some text, none⟩ := by
      simp [Draft.putAll, Draft.put, Draft.has, Draft.empty, path.read_toJson, toString?, bind, Except.bind]
    exact ofJson_object rfl (by simp) hdraft rfl
  | append parent tree =>
    have hdraft : Draft.empty.putAll [(.path, parent.toJson), (.tree, tree.toJson)] =
        .ok ⟨some parent, none, none, some tree⟩ := by
      simp [Draft.putAll, Draft.put, Draft.has, Draft.empty, parent.read_toJson, tree.ofJson_toJson, bind, Except.bind]
    exact ofJson_object rfl (by simp) hdraft rfl
  | remove path =>
    have hdraft : Draft.empty.putAll [(.path, path.toJson)] = .ok ⟨some path, none, none, none⟩ := by
      simp [Draft.putAll, Draft.put, Draft.has, Draft.empty, path.read_toJson, bind, Except.bind]
    exact ofJson_object rfl (by simp) hdraft rfl
  | replace path tree =>
    have hdraft : Draft.empty.putAll [(.path, path.toJson), (.tree, tree.toJson)] =
        .ok ⟨some path, none, none, some tree⟩ := by
      simp [Draft.putAll, Draft.put, Draft.has, Draft.empty, path.read_toJson, tree.ofJson_toJson, bind, Except.bind]
    exact ofJson_object rfl (by simp) hdraft rfl

/-- What is written for an edit is plain, five levels deep, if its numbers fit a word. -/
theorem plain_toJson (limit : Nat) {e : Edit} (h : ∀ n ∈ e.numbers, n < wordLimit) : e.toJson.Plain (limit + 5) := by
  have hpath : ∀ p : Path, (∀ n ∈ p, n < wordLimit) → p.toJson.Plain (limit + 4) := fun p hp =>
    plain_map fun n hn => plain_ofNat (hp n hn)
  have htree : ∀ t : Tree, (∀ n ∈ t.records.map Record.children, n < wordLimit) → t.toJson.Plain (limit + 4) := fun t ht =>
    t.plain_toJson limit fun r hr => ht r.children (List.mem_map_of_mem hr)
  refine ⟨limit + 4, rfl, trivial, ?_⟩
  cases e with
  | setAttributes path attributes =>
    have hattributes : (array (attributes.map Attribute.toJson)).Plain (limit + 4) :=
      plain_map fun a _ => a.plain_toJson (limit + 2)
    exact ⟨hpath path h, hattributes, trivial⟩
  | setText path text => exact ⟨hpath path h, trivial, trivial⟩
  | append parent tree =>
    obtain ⟨hparent, hcounts⟩ := List.forall_mem_append.mp h
    exact ⟨hpath parent hparent, htree tree hcounts, trivial⟩
  | remove path => exact ⟨hpath path h, trivial⟩
  | replace path tree =>
    obtain ⟨hparent, hcounts⟩ := List.forall_mem_append.mp h
    exact ⟨hpath path hparent, htree tree hcounts, trivial⟩

/-- Edits whose numbers fit 64 bits are read back, whatever names they write. -/
theorem ofText_encode {edits : List Edit} (h : ∀ e ∈ edits, ∀ n ∈ e.numbers, n < wordLimit) :
    ofText (encode edits).toList = .ok edits := by
  have hplain : (array (edits.map toJson)).Plain depthLimit :=
    plain_map fun e he => plain_toJson 121 (h e he)
  have hitems : (edits.map toJson).mapM ofJson = .ok edits :=
    mapM_map fun e _ => e.ofJson_toJson
  rw [ofText, encode, Items.ofText_compact hplain]
  simp only [hitems, bind, Except.bind, Bool.and_self, if_true]

/-- Edits with legal names are read back if their numbers fit 64 bits. -/
theorem decode_encode {edits : List Edit} (hnames : checkNames 0 edits = .ok ())
    (hnumbers : ∀ e ∈ edits, ∀ n ∈ e.numbers, n < wordLimit) : decode (encode edits).toList = .ok edits := by
  rw [decode, ofText_encode hnumbers]
  simp only [bind, Except.bind, hnames]

end Edit

end LiveMarkup
