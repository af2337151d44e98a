/-!
# Laying text out in columns

Generated text is aligned in columns. A column is as wide as its widest item, counted in characters,
and every item is filled with spaces on the right.
-/

namespace VerilogScaffold.Text

/-- Fills a text with spaces on the right until it is `width` characters long. -/
def padRight (width : Nat) (text : String) : String :=
  text ++ String.ofList (List.replicate (width - text.length) ' ')

/-- The length of the longest of some texts. -/
def widest (texts : List String) : Nat := (texts.map String.length).foldr max 0

/-- Joins texts with a separator between neighbours. -/
def joinWith (separator : String) : List String → String
  | [] => ""
  | [text] => text
  | text :: rest => text ++ separator ++ joinWith separator rest

theorem length_padRight (width : Nat) (text : String) :
    (padRight width text).length = max width text.length := by
  simp only [padRight, String.length_append, String.length_ofList, List.length_replicate]
  omega

theorem length_le_widest {texts : List String} {text : String} (h : text ∈ texts) :
    text.length ≤ widest texts := by
  induction texts with
  | nil => cases h
  | cons t ts ih =>
    have hwidest : widest (t :: ts) = max t.length (widest ts) := rfl
    rcases List.mem_cons.1 h with rfl | h
    · omega
    · have := ih h
      omega

theorem toList_padRight (width : Nat) (text : String) :
    (padRight width text).toList = text.toList ++ List.replicate (width - text.length) ' ' := by
  rw [padRight, String.toList_append, String.toList_ofList]

theorem joinWith_cons {rest : List String} (h : rest ≠ []) (separator text : String) :
    joinWith separator (text :: rest) = text ++ separator ++ joinWith separator rest := by
  rw [joinWith]
  exact h

/-- What holds of some texts, and of two together with the separator between them, holds of all
together. -/
theorem joinWith_induction {P : List Char → Prop} {separator : String}
    (hpair : ∀ {a b}, P a → P b → P (a ++ (separator.toList ++ b))) {texts : List String}
    (hne : texts ≠ []) (h : ∀ t ∈ texts, P t.toList) : P (joinWith separator texts).toList := by
  induction texts with
  | nil => exact absurd rfl hne
  | cons t texts ih =>
    have ht := h t (List.mem_cons_self ..)
    by_cases hnil : texts = []
    · rw [hnil]
      exact ht
    · rw [joinWith_cons hnil, String.toList_append, String.toList_append, List.append_assoc]
      exact hpair ht (ih hnil fun u hu => h u (List.mem_cons_of_mem _ hu))

end VerilogScaffold.Text
