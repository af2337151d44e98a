import VerilogScaffold.Proofs.Bytes
import VerilogScaffold.Proofs.Directory
import VerilogScaffold.Template.Store

/-!
# Names of template files

The name of a template's file tells the template's name and its kind (`TemplateStore.fileOf_inj`),
whatever the name is, also one that holds the ending of the other kind. A valid name consists of
ASCII characters, so names are in the same order as their bytes (`Template.bytes_lt_iff`).
-/

namespace VerilogScaffold

namespace Template

variable {name a b : String}

theorem isValidName_iff : isValidName name = true ↔
    name.toList ≠ [] ∧ ∀ c ∈ name.toList, c.isAlphanum = true ∨ c = '_' ∨ c = '-' := by
  simp [isValidName, or_assoc]

theorem toNat_lt_of_isValidName (h : isValidName name = true) {c : Char} (hc : c ∈ name.toList) :
    c.toNat < 128 := by
  rcases (isValidName_iff.1 h).2 c hc with hc | rfl | rfl
  · exact Text.Uniform.isAlphanum.lt_of_eq_true hc
  · decide
  · decide

/-- The bytes of a text in UTF-8. -/
def bytes (text : String) : List UInt8 := text.toUTF8.data.toList

theorem bytes_eq (text : String) : bytes text = Text.encode text.toList := by
  have hencode : text.toUTF8 = text.toList.utf8Encode := String.utf8Encode_toList.symm
  rw [bytes, hencode, List.utf8Encode, List.data_toByteArray]
  rfl

private theorem encode_lt_iff {xs ys : List Char} (hx : ∀ c ∈ xs, c.toNat < 128)
    (hy : ∀ c ∈ ys, c.toNat < 128) :
    Text.encode xs < Text.encode ys ↔ xs < ys := by
  have hbyte : ∀ {c : Char}, c.toNat < 128 → String.utf8EncodeChar c = [c.val.toUInt8] := fun h =>
    String.utf8EncodeChar_eq_singleton (Text.utf8Size_of_lt h)
  induction xs generalizing ys with
  | nil =>
    cases ys with
    | nil => simp
    | cons y ys => simp [hbyte (hy y (by simp))]
  | cons x xs ih =>
    cases ys with
    | nil => simp [hbyte (hx x (by simp))]
    | cons y ys =>
      have hx' := List.forall_mem_cons.1 hx
      have hy' := List.forall_mem_cons.1 hy
      have htoNat : ∀ {c : Char}, c.toNat < 128 → c.val.toUInt8.toNat = c.toNat := fun {c} h =>
        Nat.mod_eq_of_lt (Nat.lt_trans h (by decide))
      have hlt : x.val.toUInt8 < y.val.toUInt8 ↔ x < y := by
        rw [UInt8.lt_iff_toNat_lt, htoNat hx'.1, htoNat hy'.1]
        rfl
      have heq : x.val.toUInt8 = y.val.toUInt8 ↔ x = y := by
        rw [← UInt8.toNat_inj, htoNat hx'.1, htoNat hy'.1]
        exact Char.toNat_inj
      rw [Text.encode_cons, Text.encode_cons, hbyte hx'.1, hbyte hy'.1, List.singleton_append,
        List.singleton_append, List.cons_lt_cons_iff, List.cons_lt_cons_iff, hlt, heq]
      exact or_congr_right (and_congr_right fun _ => ih hx'.2 hy'.2)

/-- Valid names are in the order of their bytes. -/
theorem bytes_lt_iff (ha : isValidName a = true) (hb : isValidName b = true) :
    bytes a < bytes b ↔ a < b := by
  rw [bytes_eq, bytes_eq]
  exact encode_lt_iff (fun _ => toNat_lt_of_isValidName ha) (fun _ => toNat_lt_of_isValidName hb)

end Template

namespace TemplateStore

open Template (isValidName)

variable {kind kind' : ScaffoldKind} {name name' file : String}

/-- The name of the file of a custom template. -/
def fileOf (kind : ScaffoldKind) (name : String) : String := name ++ fileEnding kind

theorem pathOf_eq (s : TemplateStore) (kind : ScaffoldKind) (name : String) :
    s.pathOf kind name = s.directory.join ⟨fileOf kind name⟩ := rfl

theorem fileOf_inj : fileOf kind name = fileOf kind' name' ↔ kind = kind' ∧ name = name' := by
  refine ⟨fun h => ?_, fun ⟨hkind, hname⟩ => hkind ▸ hname ▸ rfl⟩
  have hlist := congrArg (fun text : String => text.toList.reverse) h
  -- the endings differ in the tenth character from the end
  cases kind <;> cases kind' <;>
    simp [fileOf, fileEnding, ScaffoldKind.suffix, ScaffoldKind.word, String.toList_inj] at hlist ⊢
  · exact hlist
  · exact hlist

theorem toList_fileOf (kind : ScaffoldKind) (name : String) :
    (fileOf kind name).toList = name.toList ++ (fileEnding kind).toList := String.toList_append

theorem length_fileEnding (kind : ScaffoldKind) : 2 < (fileEnding kind).toList.length := by
  cases kind <;> decide

theorem isFileName_fileOf (h : isValidName name = true) :
    FileTree.IsFileName (fileOf kind name) := by
  have hchars : ∀ c ∈ (fileOf kind name).toList, c ≠ '/' ∧ c ≠ '\x00' := by
    intro c hc
    rw [toList_fileOf, List.mem_append] at hc
    rcases hc with hc | hc
    · rcases (Template.isValidName_iff.1 h).2 c hc with hc | rfl | rfl
      · refine ⟨?_, ?_⟩ <;>
        · rintro rfl
          revert hc
          decide
      · decide
      · decide
    · revert c
      cases kind <;> decide
  have hlong : 2 < (fileOf kind name).toList.length := by
    rw [toList_fileOf, List.length_append]
    exact Nat.lt_of_lt_of_le (length_fileEnding kind) (Nat.le_add_left _ _)
  have hne : ∀ text : String, text.toList.length ≤ 2 → fileOf kind name ≠ text := by
    rintro text htext rfl
    exact absurd hlong (Nat.not_lt.2 htext)
  exact ⟨fun hc => (hchars _ hc).1 rfl, fun hc => (hchars _ hc).2 rfl, hne _ (by decide),
    hne _ (by decide), hne _ (by decide)⟩

theorem nameOfFile?_eq_some_iff :
    nameOfFile? kind file = some name ↔ isValidName name = true ∧ file = fileOf kind name := by
  have hname : ∀ front : List Char, (front ++ (fileEnding kind).toList).take
      ((front ++ (fileEnding kind).toList).length - (fileEnding kind).toList.length) = front := by
    intro front
    rw [List.length_append, Nat.add_sub_cancel, List.take_left]
  rw [nameOfFile?]
  constructor
  · intro h
    dsimp only at h
    split at h
    · rename_i hends
      obtain ⟨front, hfront⟩ := List.isSuffixOf_iff_suffix.1 hends
      rw [← hfront, hname] at h
      split at h
      · rename_i hvalid
        obtain rfl := Option.some.inj h
        refine ⟨hvalid, String.toList_inj.1 ?_⟩
        rw [toList_fileOf, String.toList_ofList, hfront]
      · cases h
    · cases h
  · rintro ⟨hvalid, rfl⟩
    have hends : (fileEnding kind).toList.isSuffixOf (fileOf kind name).toList = true :=
      List.isSuffixOf_iff_suffix.2 (toList_fileOf kind name ▸ List.suffix_append _ _)
    simp only [hends, if_true]
    rw [toList_fileOf, hname, String.ofList_toList, if_pos hvalid]

end TemplateStore

end VerilogScaffold
