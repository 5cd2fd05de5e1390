import ClassNotation.Proofs.HeaderReadings

/-! Headers written out with single blanks, up to their opening brace and with other text behind it. The
scan that a header is meant for reads it there, and the others pass over it: a name may end in a
keyword, but what follows it never fits. -/
namespace ClassNotation
open Grammar

def parentPhrase : Option Text → Text
  | some parent => " extends ".toList ++ parent
  | none => []

/-- The header of a class from its keyword on, and what follows the opening brace. -/
def classPhrase (name : Text) (parent : Option Text) (t : Text) : Text :=
  "class".toList ++ ' ' :: (name ++ (parentPhrase parent ++ ' ' :: '\x7b' :: t))

def markedPhrase (isAbstract : Bool) (name : Text) (parent : Option Text) (t : Text) : Text :=
  if isAbstract then "abstract".toList ++ ' ' :: classPhrase name parent t else classPhrase name parent t

def enumPhrase (name t : Text) : Text := "enum".toList ++ ' ' :: (name ++ ' ' :: '\x7b' :: t)

section
variable {name : Text} {parent : Option Text}

theorem classPhrase_eq (name : Text) (parent : Option Text) (t : Text) : classPhrase name parent t =
    "class".toList ++ ' ' :: (name ++ (parentPhrase parent ++ ' ' :: '\x7b' :: t)) := rfl

theorem enumPhrase_eq (name t : Text) : enumPhrase name t = "enum".toList ++ ' ' :: (name ++ ' ' :: '\x7b' :: t) := rfl

private theorem parentPhrase_some (p t : Text) :
    parentPhrase (some p) ++ t = ' ' :: ("extends".toList ++ ' ' :: (p ++ t)) := by
  have he : " extends ".toList = ' ' :: ("extends".toList ++ [' ']) := rfl
  change " extends ".toList ++ p ++ t = _
  rw [he]
  simp only [List.append_assoc, List.cons_append, List.nil_append]

private theorem parentText_parentPhrase (hparent : ∀ p ∈ parent, IsWord p) :
    ParentText (parentPhrase parent) parent := by
  cases parent with
  | none => rfl
  | some p => exact ⟨[' '], [' '], rfl, isGap_space, isGap_space, hparent p rfl⟩

private theorem stops_parentPhrase (parent : Option Text) (t : Text) :
    Stops isWordChar (parentPhrase parent ++ ' ' :: '\x7b' :: t) := by
  cases parent with
  | none => exact stops_cons.mpr isWordChar_space
  | some p =>
    rw [parentPhrase_some]
    exact stops_cons.mpr isWordChar_space

private theorem run_classPhrase (hname : IsWord name) (hparent : ∀ p ∈ parent, IsWord p) {body : Text}
    (hbody : '\x7d' ∉ body)
    (t : Text) : ClassHeader.grammar.run (classPhrase name parent (body ++ '\x7d' :: t)) =
      some (⟨name, parent, body⟩, t) :=
  ClassHeader.run_eq_some_iff.mpr ⟨[' '], parentPhrase parent, [' '], rfl, isGap_space, hname,
    parentText_parentPhrase hparent, isGap_space.blank, hbody⟩

private theorem run_enumPhrase (hname : IsWord name) {body : Text} (hbody : '\x7d' ∉ body) (t : Text) :
    EnumHeader.grammar.run (enumPhrase name (body ++ '\x7d' :: t)) = some (⟨name, body⟩, t) :=
  EnumHeader.run_eq_some_iff.mpr ⟨[' '], [' '], rfl, isGap_space, hname, isGap_space.blank, hbody⟩

private theorem scan_markedPhrase {α : Type} {g next : Grammar α} {k : Text} (hg : Keyworded g k next)
    (hk : ¬ k <:+ "abstract".toList) (isAbstract : Bool) (t : Text) :
    g.scan (markedPhrase isAbstract name parent t) = g.scan (classPhrase name parent t) := by
  unfold markedPhrase
  split
  · exact hg.scan_other_cons isWord_abstract hk isWordChar_space
  · rfl

/-- The class scan finds the header, with the text up to the next closing brace. -/
theorem classes_markedPhrase (hname : IsWord name) (hparent : ∀ p ∈ parent, IsWord p) (isAbstract : Bool)
    {body : Text} (hbody : '\x7d' ∉ body) (t : Text) :
    ClassHeader.grammar.scan (markedPhrase isAbstract name parent (body ++ '\x7d' :: t)) =
      ⟨name, parent, body⟩ :: ClassHeader.grammar.scan t := by
  have hrun := run_classPhrase hname hparent hbody t
  rw [scan_markedPhrase ClassHeader.keyworded (by decide),
    scan_of_run_eq_some hrun (ClassHeader.braced.length_lt hrun)]

/-- The enum scan passes over the header of a class. -/
theorem enums_markedPhrase (hname : IsWord name) (hparent : ∀ p ∈ parent, IsWord p) (isAbstract : Bool) (t : Text) :
    EnumHeader.grammar.scan (markedPhrase isAbstract name parent t) = EnumHeader.grammar.scan t := by
  have hk := EnumHeader.keyworded
  have hlast {w : Text} (hw : IsWord w) :
      EnumHeader.grammar.scan (w ++ ' ' :: '\x7b' :: t) = EnumHeader.grammar.scan t := by
    rw [hk.scan_word_cons hw.chars (by simp) (fun _ => wordLed_word_bind.run_afterBlanks (by simp)),
      hk.wordLed.scan_cons (by simp)]
  rw [scan_markedPhrase hk (by decide), classPhrase_eq, hk.scan_other_cons isWord_class (by decide) (by simp)]
  cases parent with
  | none => exact hlast hname
  | some p =>
    rw [parentPhrase_some, hk.scan_word_cons hname.chars (by simp),
      hk.scan_other_cons isWord_extends (by decide) (by simp)]
    · exact hlast (hparent p rfl)
    · intro _
      rw [run_afterBlanks_word isBlank_space isWord_extends]
      change EnumHeader.afterKeyword.run ("extends".toList ++ ([' '] ++ (p ++ _))) = none
      exact EnumHeader.run_afterKeyword_of_word isWord_extends (hparent p rfl) isGap_space

private theorem marks_parentPhrase (hparent : ∀ p ∈ parent, IsWord p) (t : Text) :
    abstractMark.scan (parentPhrase parent ++ ' ' :: '\x7b' :: t) = abstractMark.scan t := by
  have hk := keyworded_abstractMark
  cases parent with
  | none => exact (hk.wordLed.scan_cons isWordChar_space _).trans (hk.wordLed.scan_cons isWordChar_openBrace t)
  | some p =>
    rw [parentPhrase_some, hk.wordLed.scan_cons (by simp),
      hk.scan_other_cons isWord_extends (by decide) (by simp), hk.scan_word_cons (hparent p rfl).chars (by simp)
        (fun _ => keyworded_markedName.wordLed.run_afterBlanks (by simp)), hk.wordLed.scan_cons (by simp)]

private theorem run_markedName_parentPhrase (parent : Option Text) (t : Text) :
    (afterBlanks markedName).run (parentPhrase parent ++ ' ' :: '\x7b' :: t) = none := by
  -- a name that ends in the keyword of a mark does not start one
  cases parent with
  | none => exact keyworded_markedName.wordLed.run_afterBlanks (stops_cons.mpr isWordChar_openBrace)
  | some p =>
    rw [parentPhrase_some, run_afterBlanks_word isBlank_space isWord_extends,
      keyworded_markedName.run_append isWord_extends.chars (by simp), if_neg (by decide)]

/-- The scan for marks finds the mark of the header and no other. -/
theorem marks_markedPhrase (hname : IsWord name) (hparent : ∀ p ∈ parent, IsWord p) (isAbstract : Bool) (t : Text) :
    abstractMark.scan (markedPhrase isAbstract name parent t) =
      (if isAbstract then [name] else []) ++ abstractMark.scan t := by
  have hk := keyworded_abstractMark
  have hstops := stops_parentPhrase parent t
  unfold markedPhrase
  split
  · have hread : abstractMark.run ("abstract".toList ++ ' ' :: classPhrase name parent t) =
        some (name, parentPhrase parent ++ ' ' :: '\x7b' :: t) := by
      rw [hk.run_append isWord_abstract.chars (by simp), if_pos rfl, classPhrase_eq,
        run_afterBlanks_word isBlank_space isWord_class,
        keyworded_markedName.run_append isWord_class.chars (by simp), if_pos rfl,
        run_afterBlanks_word isBlank_space hname, run_word_append hname hstops]
    rw [hk.wordLed.scan_of_run hread hstops, marks_parentPhrase hparent]
    rfl
  · rw [classPhrase_eq, hk.scan_other_cons isWord_class (by decide) (by simp),
      hk.scan_word hname.chars hstops (fun _ => run_markedName_parentPhrase parent t), marks_parentPhrase hparent]
    rfl

/-- The class scan passes over the header of an enum. -/
theorem classes_enumPhrase (hname : IsWord name) (t : Text) :
    ClassHeader.grammar.scan (enumPhrase name t) = ClassHeader.grammar.scan t := by
  have hk := ClassHeader.keyworded
  rw [enumPhrase_eq, hk.scan_other_cons isWord_enum (by decide) (by simp),
    hk.scan_word_cons hname.chars (by simp) (fun _ => wordLed_word_bind.run_afterBlanks (by simp)),
    hk.wordLed.scan_cons (by simp)]

/-- The enum scan finds the header, with the text up to the next closing brace. -/
theorem enums_enumPhrase (hname : IsWord name) {body : Text} (hbody : '\x7d' ∉ body) (t : Text) :
    EnumHeader.grammar.scan (enumPhrase name (body ++ '\x7d' :: t)) = ⟨name, body⟩ :: EnumHeader.grammar.scan t := by
  have hrun := run_enumPhrase hname hbody t
  rw [scan_of_run_eq_some hrun (EnumHeader.braced.length_lt hrun)]

/-- The scan for marks passes over the header of an enum. -/
theorem marks_enumPhrase (hname : IsWord name) (t : Text) :
    abstractMark.scan (enumPhrase name t) = abstractMark.scan t := by
  have hk := keyworded_abstractMark
  rw [enumPhrase_eq, hk.scan_other_cons isWord_enum (by decide) (by simp),
    hk.scan_word_cons hname.chars (by simp) (fun _ => keyworded_markedName.wordLed.run_afterBlanks (by simp)),
    hk.wordLed.scan_cons (by simp)]

end
end ClassNotation
