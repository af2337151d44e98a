import VerilogScaffold.Json.Record
import VerilogScaffold.Proofs.JsonText

/-!
# Records are read back from their text

A type is lawful (`LawfulJsonForm`) if its values are read from their JSON form, and that form from
its text. Words and numbers are lawful, an enumeration is if its labels are all different, and a
record is if its fields are (`LawfulRecord.lawful`).

What the reader makes of an object is said without its search for the fields
(`Json.fields?_object_iff`). The entries are the fields, each once and in any order, and entries of
other names, which are passed over (`Json.HasFields`). A record may therefore be spelled in many
ways, and also as the list of its fields. It is read from each of these texts, and the one that is
written for it is the one that is rewritten to itself (`Json.RoundTrips`).
-/

namespace VerilogScaffold

open JsonForm

namespace Json

/-! ## Fields -/

/-- The entries of some values, each under its name. -/
def named (names : List String) (values : List Json) : List (JsonString × Json) :=
  (names.zip values).map fun f => (.text f.1, f.2)

/-- Whether the entries of an object are some fields, each once and in any order, and entries of
other names. -/
def HasFields (entries : List (JsonString × Json)) (names : List String)
    (values : List Json) : Prop :=
  values.length = names.length ∧
    ∃ others, entries.Perm (named names values ++ others) ∧ ∀ e ∈ others, ∀ name ∈ names,
    e.1 ≠ .text name

theorem exists_mem_named {names : List String} {values : List Json}
    (hlength : values.length = names.length)
    {name : String} (hname : name ∈ names) : ∃ e ∈ named names values, e.1 = .text name := by
  rw [← List.map_fst_zip (Nat.le_of_eq hlength.symm)] at hname
  obtain ⟨f, hf, rfl⟩ := List.mem_map.1 hname
  exact ⟨_, List.mem_map_of_mem hf, rfl⟩

theorem filter_named_append {names : List String} {name : String} (hname : name ∉ names)
    (values : List Json) (others : List (JsonString × Json)) :
    (named names values ++ others).filter (·.1 = .text name) = others.filter
    (·.1 = .text name) := by
  rw [List.filter_append, List.filter_eq_nil_iff.2, List.nil_append]
  intro e he hkey
  obtain ⟨f, hf, rfl⟩ := List.mem_map.1 he
  obtain rfl : f.1 = name := by simpa using hkey
  exact hname (List.of_mem_zip hf).1

theorem field?_eq_some_iff {entries : List (JsonString × Json)} {name : String} {value : Json} :
    field? entries name = some value ↔
      entries.filter (·.1 = .text name) = [(.text name, value)] := by
  unfold field?
  constructor
  · intro h
    split at h
    · rename_i key found hfilter
      obtain rfl := Option.some.inj h
      have hmem : (key, found) ∈ entries.filter (·.1 = .text name) := by
        rw [hfilter]
        exact List.mem_singleton_self _
      have hkey : key = .text name := of_decide_eq_true (List.mem_filter.1 hmem).2
      rw [hfilter, hkey]
    · cases h
  · intro h
    rw [h]

section

variable {names : List String} {name : String} {values : List Json} {value : Json}
  {entries entries' others : List (JsonString × Json)}

/-- One more field is the one entry of its name among those that are not fields yet. -/
theorem hasFields_cons_iff (hname : name ∉ names) :
    HasFields entries (name :: names) (value :: values) ↔
      field? entries name = some value ∧ HasFields entries names values := by
  rw [field?_eq_some_iff, ← List.perm_singleton]
  constructor
  · rintro ⟨hlength, others, hperm, hothers⟩
    -- without the first field the others are the fields that are left, and it is one of the further
    -- entries
    have hmoved : entries.Perm (named names values ++ (.text name, value) :: others) :=
      hperm.trans List.perm_middle.symm
    refine ⟨(hmoved.filter _).trans ?_, Nat.succ.inj hlength, _, hmoved, ?_⟩
    · rw [filter_named_append hname, List.filter_cons_of_pos (by simp), List.filter_eq_nil_iff.2]
      intro e he hkey
      exact hothers e he name (List.mem_cons_self ..) (of_decide_eq_true hkey)
    · intro e he n hn
      rcases List.mem_cons.1 he with rfl | he
      · rintro ⟨⟩
        exact hname hn
      · exact hothers e he n (List.mem_cons_of_mem _ hn)
  · rintro ⟨hvalue, hlength, others, hperm, hothers⟩
    -- none of the other fields has this name, so its one entry is among the further ones
    have hfirst : others.filter (·.1 = .text name) = [(.text name, value)] := by
      rw [← List.perm_singleton, ← filter_named_append hname values]
      exact (hperm.filter _).symm.trans hvalue
    have hleft := List.filter_append_perm (·.1 = .text name) others
    rw [hfirst] at hleft
    refine ⟨congrArg Nat.succ hlength, others.filter fun e => !decide (e.1 = .text name), ?_, ?_⟩
    · exact hperm.trans ((hleft.symm.append_left _).trans List.perm_middle)
    · intro e he n hn
      obtain ⟨he, hkey⟩ := List.mem_filter.1 he
      rcases List.mem_cons.1 hn with rfl | hn
      · simpa using hkey
      · exact hothers e he n hn

theorem mapM_field?_eq_some_iff (hnames : names.Nodup) :
    names.mapM (field? entries) = some values ↔ HasFields entries names values := by
  induction names generalizing values with
  | nil =>
    constructor
    · intro h
      obtain rfl := Option.some.inj h
      exact ⟨rfl, entries, .refl _, by simp⟩
    · rintro ⟨hlength, -⟩
      rw [List.length_eq_zero_iff.1 hlength]
      rfl
  | cons name names ih =>
    obtain ⟨hname, hnames⟩ := List.nodup_cons.1 hnames
    have hcons : (name :: names).mapM (field? entries) = some values ↔
        ∃ first, field? entries name = some first ∧
          ∃ rest, names.mapM (field? entries) = some rest ∧ first :: rest = values := by
      simp only [List.mapM_cons, Option.bind_eq_bind, Option.bind_eq_some_iff, Option.pure_def,
        Option.some.injEq]
    rw [hcons]
    constructor
    · rintro ⟨value, hvalue, values, hvalues, rfl⟩
      exact (hasFields_cons_iff hname).2 ⟨hvalue, (ih hnames).1 hvalues⟩
    · intro h
      rcases values with _ | ⟨value, values⟩
      · cases h.1
      · obtain ⟨hvalue, hfields⟩ := (hasFields_cons_iff hname).1 h
        exact ⟨value, hvalue, values, (ih hnames).2 hfields, rfl⟩

/-- **The fields of an object are found by their names.** Its keys have to be texts, and each field
has to stand there once. -/
theorem fields?_object_iff (hnames : names.Nodup) :
    (Json.object entries).fields? names = some values ↔
      (∀ e ∈ entries, ∃ key, e.1 = .text key) ∧ HasFields entries names values := by
  have hkeys : entries.all hasTextKey = true ↔ ∀ e ∈ entries, ∃ key, e.1 = .text key := by
    rw [List.all_eq_true]
    refine forall₂_congr fun e _ => ?_
    unfold hasTextKey
    cases e.1 <;> simp
  rw [← mapM_field?_eq_some_iff hnames, ← hkeys]
  show (if entries.all hasTextKey = true then names.mapM (field? entries)
    else none) = some values ↔ _
  split <;> simp [*]

/-- The fields are the same in another order, and with entries of other names among them. -/
theorem HasFields.respelled (h : HasFields entries names values)
    (hperm : entries'.Perm (entries ++ others))
    (hothers : ∀ e ∈ others, ∀ f ∈ entries, f.1 ≠ e.1) : HasFields entries' names values := by
  obtain ⟨hlength, unknown, hentries, hunknown⟩ := h
  refine ⟨hlength, unknown ++ others, ?_, ?_⟩
  · rw [← List.append_assoc]
    exact hperm.trans (hentries.append_right others)
  · intro e he name hname hkey
    rcases List.mem_append.1 he with he | he
    · exact hunknown e he name hname hkey
    · -- a field of that name is there already
      obtain ⟨f, hf, hfkey⟩ := exists_mem_named hlength hname
      exact hothers e he f (hentries.mem_iff.2 (List.mem_append_left _ hf)) (hfkey.trans hkey.symm)

end

theorem fields?_ofFields {names : List String} (hnames : names.Nodup) {values : List Json}
    (hlength : values.length = names.length) :
    (ofFields (names.zip values)).fields? names = some values := by
  refine (fields?_object_iff hnames).2 ⟨?_, hlength, [], ?_, ?_⟩
  · intro e he
    obtain ⟨f, -, rfl⟩ := List.mem_map.1 he
    exact ⟨f.1, rfl⟩
  · rw [List.append_nil]
    exact .refl _
  · intro e he
    cases he

/-! ## Numbers and labels -/

theorem natBelow?_ofNat {n bound : Nat} (h : n < bound) : (ofNat n).natBelow? bound = some n := by
  have hdigits : Nat.toDigits 10 n ≠ [] ∧ (Nat.toDigits 10 n).all Char.isDigit = true := by
    refine ⟨Nat.toDigits_ne_nil, List.all_eq_true.2 ?_⟩
    intro c hc
    exact Nat.isDigit_of_mem_toDigits (by omega) (by omega) hc
  have hliteral : literalNat? (Nat.toDigits 10 n) = some n := by
    unfold literalNat?
    rw [if_pos hdigits, ← Nat.ofDigitChars_eq_foldl, Nat.ofDigitChars_ten_toDigits]
  unfold natBelow? ofNat
  dsimp only
  rw [hliteral, Option.filter_some, if_pos (decide_eq_true h)]

/-- A label that no other value has gives its value. -/
theorem labelled?_ofText {α : Type} {all : List α} {label : α → String}
    (hlabels : (all.map label).Nodup) {a : α}
    (ha : a ∈ all) : labelled? all label (ofText (label a)) = some a := by
  show all.find? (fun b => label b == label a) = some a
  induction all with
  | nil => cases ha
  | cons b all ih =>
    rw [List.map_cons, List.nodup_cons] at hlabels
    rcases List.mem_cons.1 ha with rfl | ha
    · exact List.find?_cons_of_pos (beq_self_eq_true _)
    · have hne : label b ≠ label a := by
        intro heq
        apply hlabels.1
        rw [heq]
        exact List.mem_map_of_mem ha
      rw [List.find?_cons_of_neg (by simpa using hne)]
      exact ih hlabels.2 ha

end Json

/-! ## Lawful types -/

/-- A type whose values are read back from their JSON form, and that from its text. -/
class LawfulJsonForm (α : Type) [JsonForm α] : Prop where
  ofJson?_toJson : ∀ a : α, ofJson? (toJson a) = some a
  readsBack_toJson : ∀ a : α, (toJson a).ReadsBack

open LawfulJsonForm

theorem Json.list?_ofList {α : Type} [JsonForm α] [LawfulJsonForm α] (xs : List α) :
    (Json.ofList xs).list? = some xs := by
  show (xs.map toJson).mapM ofJson? = some xs
  induction xs with
  | nil => rfl
  | cons x xs ih =>
    rw [List.map_cons, List.mapM_cons, ofJson?_toJson, ih]
    rfl

theorem Json.readsBack_ofList {α : Type} [JsonForm α] [LawfulJsonForm α] (xs : List α) :
    (Json.ofList xs).ReadsBack := by
  apply readsBack_array
  intro j hj
  obtain ⟨x, -, rfl⟩ := List.mem_map.1 hj
  exact readsBack_toJson x

instance : LawfulJsonForm String where
  ofJson?_toJson _ := rfl
  readsBack_toJson := Json.readsBack_ofText

instance : LawfulJsonForm UInt32 where
  ofJson?_toJson n := by
    show ((Json.ofNat n.toNat).natBelow? UInt32.size).map UInt32.ofNat = some n
    rw [Json.natBelow?_ofNat n.toNat_lt, Option.map_some, UInt32.ofNat_toNat]
  readsBack_toJson n := Json.readsBack_ofNat n.toNat

instance : LawfulJsonForm UInt16 where
  ofJson?_toJson n := by
    show ((Json.ofNat n.toNat).natBelow? UInt16.size).map UInt16.ofNat = some n
    rw [Json.natBelow?_ofNat n.toNat_lt, Option.map_some, UInt16.ofNat_toNat]
  readsBack_toJson n := Json.readsBack_ofNat n.toNat

instance : LawfulJsonForm Severity where
  ofJson?_toJson s := Json.labelled?_ofText (by decide) (by cases s <;> decide)
  readsBack_toJson s := Json.readsBack_ofText s.label

instance : LawfulJsonForm Category where
  ofJson?_toJson c := Json.labelled?_ofText (by decide) (by cases c <;> decide)
  readsBack_toJson c := Json.readsBack_ofText c.label

theorem TokenKind.mem_all (k : TokenKind) : k ∈ TokenKind.all := by
  unfold TokenKind.all
  cases k with
  | keyword k => exact List.mem_append_left _ (List.mem_map_of_mem (Keyword.mem_all k))
  | opening b => cases b <;> simp
  | closing b => cases b <;> simp
  | _ => simp

instance : LawfulJsonForm TokenKind where
  ofJson?_toJson k := Json.labelled?_ofText (by decide) (TokenKind.mem_all k)
  readsBack_toJson k := Json.readsBack_ofText k.label

/-! ## Records -/

/-- A record type: its values are written under names that are all different, and what stands under
these names is all that is read. For a record of lawful fields and lists of them the definitions of
the two directions say so themselves. -/
class LawfulRecord (α : Type) [JsonForm α] where
  names : List String
  values : α → List Json
  nodup_names : names.Nodup := by decide
  length_values : ∀ a, (values a).length = names.length := by exact fun _ => rfl
  toJson_eq : ∀ a, toJson a = Json.ofFields (names.zip (values a)) := by exact fun _ => rfl
  /-- Nothing but the fields is looked at. -/
  ofJson?_eq : ∃ read : List Json → Option α, ∀ j, ofJson? j = (j.fields? names).bind read := by
    exact ⟨_, fun _ => rfl⟩
  readsBack_values : ∀ a, ∀ j ∈ values a, j.ReadsBack := by
    intro a
    simp [readsBack_toJson, Json.readsBack_ofList]
  /-- The list of the fields is read as the record. -/
  ofJson?_array : ∀ a, ofJson? (.array (values a)) = some a := by
    intro a
    show (some _).bind _ = _
    simp only [ofJson?_toJson, Json.list?_ofList, Option.bind_some]
    rfl

namespace LawfulRecord

variable {α : Type} [JsonForm α] [LawfulRecord α]

/-- Values that have the same fields are read alike. -/
theorem ofJson?_congr {j j' : Json} (h : j.fields? (names α) = j'.fields? (names α)) :
    (ofJson? j : Option α) = ofJson? j' := by
  obtain ⟨read, hread⟩ := ofJson?_eq (α := α)
  rw [hread, hread, h]

theorem exists_fields? {j : Json} {a : α} (h : ofJson? j = some a) :
    ∃ values, j.fields? (names α) = some values := by
  obtain ⟨read, hread⟩ := ofJson?_eq (α := α)
  rw [hread] at h
  obtain ⟨values, hvalues, -⟩ := Option.bind_eq_some_iff.1 h
  exact ⟨values, hvalues⟩

theorem fields?_array (a : α) : (Json.array (values a)).fields? (names α) = some (values a) := by
  show (if (values a).length = (names α).length then some (values a) else none) = _
  rw [if_pos (length_values a)]

/-- A record is read back as its fields are. -/
instance lawful : LawfulJsonForm α where
  ofJson?_toJson a := by
    -- the record and the list of its fields have the same fields, so they are read alike
    have hfields : (toJson a).fields? (names α) = some (values a) := by
      rw [toJson_eq]
      exact Json.fields?_ofFields nodup_names (length_values a)
    rw [ofJson?_congr (hfields.trans (fields?_array a).symm), ofJson?_array]
  readsBack_toJson a := by
    rw [toJson_eq]
    apply Json.readsBack_ofFields
    intro f hf
    exact readsBack_values a _ (List.of_mem_zip hf).2

theorem ofJson?_respelled {entries entries' others : List (JsonString × Json)} {a : α}
    (hperm : entries'.Perm (entries ++ others))
    (hothers : ∀ e ∈ others, (∃ key, e.1 = .text key) ∧ ∀ f ∈ entries, f.1 ≠ e.1)
    (h : ofJson? (.object entries) = some a) : ofJson? (.object entries') = some a := by
  obtain ⟨values, hvalues⟩ := exists_fields? h
  obtain ⟨hkeys, hfields⟩ := (Json.fields?_object_iff nodup_names).1 hvalues
  have hkeys' : ∀ e ∈ entries', ∃ key, e.1 = .text key := by
    intro e he
    rcases List.mem_append.1 (hperm.mem_iff.1 he) with he | he
    · exact hkeys e he
    · exact (hothers e he).1
  have hvalues' : (Json.object entries').fields? (names α) = some values :=
    (Json.fields?_object_iff nodup_names).2
      ⟨hkeys', hfields.respelled hperm fun e he => (hothers e he).2⟩
  rw [← h]
  exact ofJson?_congr (hvalues'.trans hvalues.symm)

end LawfulRecord

instance : LawfulRecord Span where
  names := ["start", "end"]
  values s := [toJson s.start, toJson s.stop]

instance : LawfulRecord Token where
  names := ["kind", "span"]
  values t := [toJson t.kind, toJson t.span]

instance : LawfulRecord Parameter where
  names := ["name", "value"]
  values p := [toJson p.name, toJson p.value]

instance : LawfulRecord Port where
  names := ["name", "range"]
  values p := [toJson p.name, toJson p.range]

instance : LawfulRecord Signature where
  names := ["name", "parameters", "inputs", "outputs", "inouts"]
  values s := [toJson s.name, Json.ofList s.parameters, Json.ofList s.inputs, Json.ofList s.outputs,
    Json.ofList s.inouts]

instance : LawfulRecord DiagnosticCode where
  names := ["category", "number"]
  values c := [toJson c.category, toJson c.number]

instance : LawfulRecord Diagnostic where
  names := ["severity", "code", "message", "primary_span", "notes", "help"]
  values d := [toJson d.severity, toJson d.code, toJson d.message, toJson d.span,
    Json.ofList d.notes, Json.ofList d.help]

/-! ## Texts -/

namespace Json

/-- What a text is rewritten to: what is written for the value that it is read as. -/
def rewrite? (α : Type) [JsonForm α] (text : String) :
    Option String := (decode? text : Option α).map encode

/-- A record type whose values and texts go round. -/
structure RoundTrips (α : Type) [JsonForm α] : Prop where
  /-- What is written for a value is read as that value. -/
  decode?_encode : ∀ a : α, decode? (encode a) = some a
  /-- What a text is rewritten to is rewritten to itself. -/
  rewrite?_of_rewrite? : ∀ text out, rewrite? α text = some out → rewrite? α out = some out
  /-- A text is read alike with its entries in another order and entries of other names among
  them. -/
  respelled : ∀ (a : α) (text text' : String) (entries entries' others : List (JsonString × Json)),
    ofString? text = some (.object entries) → ofString? text' = some (.object entries') →
    entries'.Perm (entries ++ others) →
    (∀ e ∈ others, (∃ key, e.1 = .text key) ∧ ∀ f ∈ entries, f.1 ≠ e.1) →
    decode? text = some a → decode? text' = some a
  /-- A text that lists the fields in their order is read as the record. -/
  listed : ∀ (a : α) (text : String) (entries : List (JsonString × Json)),
    toJson a = .object entries →
    ofString? text = some (.array (entries.map Prod.snd)) → decode? text = some a

theorem decode?_encode {α : Type} [JsonForm α] [LawfulJsonForm α] (a : α) :
    decode? (encode a) = some a := by
  unfold decode? encode
  rw [ofString?_compact (readsBack_toJson a)]
  exact ofJson?_toJson a

theorem RoundTrips.of_lawful (α : Type) [JsonForm α] [LawfulRecord α] : RoundTrips α := by
  constructor
  case decode?_encode => exact Json.decode?_encode
  case rewrite?_of_rewrite? =>
    intro text out h
    obtain ⟨a, -, rfl⟩ := Option.map_eq_some_iff.1 h
    unfold rewrite?
    rw [Json.decode?_encode a]
    rfl
  case respelled =>
    intro a text text' entries entries' others htext htext' hperm hothers h
    unfold decode? at h ⊢
    rw [htext] at h
    rw [htext']
    exact LawfulRecord.ofJson?_respelled hperm hothers h
  case listed =>
    intro a text entries hentries htext
    have hvalues : entries.map Prod.snd = LawfulRecord.values a := by
      rw [LawfulRecord.toJson_eq] at hentries
      rw [← Json.object.inj hentries, List.map_map]
      exact List.map_snd_zip (Nat.le_of_eq (LawfulRecord.length_values a))
    unfold decode?
    rw [htext, hvalues]
    exact LawfulRecord.ofJson?_array a

/-- **Records go round.** What is written for a record is read as that record, with whatever texts
and however many entries it has, and what an accepted text is rewritten to is accepted and rewritten
to itself. -/
theorem roundTrips :
    RoundTrips Signature ∧ RoundTrips Token ∧ RoundTrips Span ∧ RoundTrips DiagnosticCode ∧
      RoundTrips Diagnostic :=
  ⟨.of_lawful _, .of_lawful _, .of_lawful _, .of_lawful _, .of_lawful _⟩

end Json

end VerilogScaffold
