import ClassNotation.Model.Json

/-! The JSON text of a model loses nothing. Every part of it tells where it ends: a string by its
closing quote, which its contents cannot imitate, and an array or object by the character behind each
of its items. So the parts can be cut off one after the other, whatever the strings hold. -/
namespace ClassNotation

def Separable (x y : Text) : Prop := ∀ r s, x ++ r = y ++ s → x = y ∧ r = s

/-- A way of writing values that tells, in front of any text, the value and where it ends. -/
def SelfDelimiting {α : Type} (write : α → Text) : Prop := ∀ a b r s, write a ++ r = write b ++ s → a = b ∧ r = s

namespace SelfDelimiting
variable {α : Type} {write : α → Text}

private theorem injective (h : SelfDelimiting write) {a b : α} (hab : write a = write b) : a = b :=
  (h a b [] [] (by rw [hab])).1

private theorem separable (h : SelfDelimiting write) (a b : α) : Separable (write a) (write b) := by
  intro r s he
  obtain ⟨rfl, hrest⟩ := h a b r s he
  exact ⟨rfl, hrest⟩

end SelfDelimiting

private theorem Separable.append_left {x y : Text} (h : Separable x y) (front : Text) :
    Separable (front ++ x) (front ++ y) := by
  intro r s he
  rw [List.append_assoc, List.append_assoc] at he
  obtain ⟨rfl, hrest⟩ := h r s (List.append_cancel_left he)
  exact ⟨rfl, hrest⟩

private theorem Text.joinWith_cons (separator t : Text) (ts : List Text) :
    joinWith separator (t :: ts) = t ++ ts.flatMap (separator ++ ·) := by
  induction ts generalizing t with
  | nil => simp [joinWith]
  | cons u ts ih => rw [joinWith, ih, List.flatMap_cons, List.append_assoc, List.append_assoc]

namespace Json

def digitValue (c : Char) : Nat := if c.toNat < 87 then c.toNat - 48 else c.toNat - 87

private theorem digitValue_hexDigit : ∀ n < 16, digitValue (hexDigit n) = n := by decide

def unescapeLetter? : Char → Option Char
  | '"' => some '"'
  | '\\' => some '\\'
  | 'b' => some '\x08'
  | 'f' => some '\x0c'
  | 'n' => some '\n'
  | 'r' => some '\r'
  | 't' => some '\t'
  | _ => none

def unescapeRest? : Text → Option (Char × Text)
  | 'u' :: '0' :: '0' :: high :: low :: t => some (Char.ofNat (16 * digitValue high + digitValue low), t)
  | c :: t => (unescapeLetter? c).map (·, t)
  | [] => none

def unescape? : Text → Option (Char × Text)
  | c :: t => if c = '\\' then unescapeRest? t else if c = '"' then none else some (c, t)
  | [] => none

private theorem unescape?_escape (c : Char) (t : Text) : unescape? (escape c ++ t) = some (c, t) := by
  unfold escape
  split
  case h_8 hquote hbackslash _ _ _ _ _ =>
    split
    · next hcontrol =>
      have hhigh := digitValue_hexDigit (c.toNat / 16) (by omega)
      have hlow := digitValue_hexDigit (c.toNat % 16) (by omega)
      have hvalue : Char.ofNat (16 * (c.toNat / 16) + c.toNat % 16) = c := by
        rw [Nat.div_add_mod, Char.ofNat_toNat]
      simp only [List.cons_append, List.nil_append, unescape?, if_true, unescapeRest?, hhigh, hlow, hvalue]
    · rw [List.singleton_append, unescape?, if_neg hbackslash, if_neg hquote]
  -- the short escapes, one for each character that has its own letter
  all_goals rfl

/-- The contents of a string end at the first quote that is not escaped. -/
theorem contents_append_inj {t u r s : Text} (h : t.flatMap escape ++ '"' :: r = u.flatMap escape ++ '"' :: s) :
    t = u ∧ r = s := by
  have hquote (x : Text) : unescape? ('"' :: x) = none := rfl
  have hread (c : Char) (x y : Text) : unescape? ((c :: x).flatMap escape ++ y) = some (c, x.flatMap escape ++ y) := by
    rw [List.flatMap_cons, List.append_assoc, unescape?_escape]
  induction t generalizing u with
  | nil =>
    cases u with
    | nil => exact ⟨rfl, (List.cons.inj h).2⟩
    | cons d u =>
      have hnone := hread d u ('"' :: s)
      rw [← h, List.flatMap_nil, List.nil_append, hquote] at hnone
      cases hnone
  | cons c t ih =>
    have hsome := hread c t ('"' :: r)
    cases u with
    | nil =>
      rw [h, List.flatMap_nil, List.nil_append, hquote] at hsome
      cases hsome
    | cons d u =>
      rw [h, hread, Option.some.injEq, Prod.mk.injEq] at hsome
      obtain ⟨rfl, hrest⟩ := hsome
      obtain ⟨rfl, hrs⟩ := ih hrest.symm
      exact ⟨rfl, hrs⟩

private theorem selfDelimiting_string : SelfDelimiting string := by
  intro t u r s h
  apply contents_append_inj
  simpa [string] using h

private theorem selfDelimiting_bool : SelfDelimiting bool := by
  have htrue : bool true = 't' :: "rue".toList := rfl
  have hfalse : bool false = 'f' :: "alse".toList := rfl
  intro a b r s h
  cases a <;> cases b
  · exact ⟨rfl, List.append_cancel_left h⟩
  · rw [htrue, hfalse] at h
    exact absurd (List.cons.inj h).1 (by decide)
  · rw [htrue, hfalse] at h
    exact absurd (List.cons.inj h).1 (by decide)
  · exact ⟨rfl, List.append_cancel_left h⟩

private theorem selfDelimiting_optional : SelfDelimiting fun t : Option Text => t.elim null string := by
  have hnull : null = 'n' :: "ull".toList := rfl
  have hstring (t r : Text) : string t ++ r = '"' :: (t.flatMap escape ++ ['"'] ++ r) := rfl
  intro t u r s h
  match t, u, h with
  | none, none, h => exact ⟨rfl, List.append_cancel_left h⟩
  | none, some u, h =>
    change null ++ r = string u ++ s at h
    rw [hnull, hstring] at h
    exact absurd (List.cons.inj h).1 (by decide)
  | some t, none, h =>
    change string t ++ r = null ++ s at h
    rw [hnull, hstring] at h
    exact absurd (List.cons.inj h).1 (by decide)
  | some t, some u, h =>
    obtain ⟨rfl, hrest⟩ := selfDelimiting_string t u r s h
    exact ⟨rfl, hrest⟩

def blockRest (closing : Char) (depth : Nat) (items : List Text) : Text :=
  items.flatMap (fun item => ',' :: '\n' :: (margin (depth + 1) ++ item)) ++ '\n' :: (margin depth ++ [closing])

private theorem block_cons (opening closing : Char) (depth : Nat) (item : Text) (items : List Text) :
    block opening closing depth (item :: items) =
      opening :: '\n' :: (margin (depth + 1) ++ (item ++ blockRest closing depth items)) := by
  have hrest : (items.map (margin (depth + 1) ++ ·)).flatMap ([',', '\n'] ++ ·) =
      items.flatMap fun item => ',' :: '\n' :: (margin (depth + 1) ++ item) := by
    rw [List.flatMap_map]
    rfl
  unfold block
  rw [if_neg (by simp), List.map_cons, Text.joinWith_cons, hrest, blockRest]
  simp only [List.append_assoc, List.cons_append]

private theorem blockRest_append_inj {closing : Char} {depth : Nat} {xs ys : List Text} {r s : Text}
    (hxy : ∀ p ∈ xs.zip ys, Separable p.1 p.2)
    (h : blockRest closing depth xs ++ r = blockRest closing depth ys ++ s) : xs = ys ∧ r = s := by
  have hnil (t : Text) : blockRest closing depth [] ++ t = '\n' :: (margin depth ++ [closing] ++ t) := rfl
  have hcons (x : Text) (xs : List Text) (t : Text) : blockRest closing depth (x :: xs) ++ t =
      ',' :: '\n' :: (margin (depth + 1) ++ (x ++ (blockRest closing depth xs ++ t))) := by
    simp only [blockRest, List.flatMap_cons, List.append_assoc, List.cons_append]
  induction xs generalizing ys with
  | nil =>
    cases ys with
    | nil => exact ⟨rfl, List.append_cancel_left h⟩
    | cons y ys =>
      rw [hnil, hcons] at h
      exact absurd (List.cons.inj h).1 (by decide)
  | cons x xs ih =>
    cases ys with
    | nil =>
      rw [hnil, hcons] at h
      exact absurd (List.cons.inj h).1 (by decide)
    | cons y ys =>
      rw [hcons, hcons] at h
      have hitems := List.append_cancel_left (List.cons.inj (List.cons.inj h).2).2
      have hfirst : Separable x y := hxy (x, y) (by simp)
      obtain ⟨rfl, hrest⟩ := hfirst _ _ hitems
      obtain ⟨rfl, hrs⟩ := ih (fun p hp => hxy p (by simp [hp])) hrest
      exact ⟨rfl, hrs⟩

/-- Blocks whose items can be told apart can be told apart, also from the block without items. -/
theorem block_append_inj {opening closing : Char} {depth : Nat} {xs ys : List Text} {r s : Text}
    (hclosing : closing ≠ '\n') (hxy : ∀ p ∈ xs.zip ys, Separable p.1 p.2)
    (h : block opening closing depth xs ++ r = block opening closing depth ys ++ s) : xs = ys ∧ r = s := by
  have hnil (t : Text) : block opening closing depth [] ++ t = opening :: closing :: t := rfl
  cases xs with
  | nil =>
    cases ys with
    | nil => exact ⟨rfl, List.append_cancel_left h⟩
    | cons y ys =>
      rw [hnil, block_cons] at h
      exact absurd (List.cons.inj (List.cons.inj h).2).1 hclosing
  | cons x xs =>
    cases ys with
    | nil =>
      rw [hnil, block_cons] at h
      exact absurd (List.cons.inj (List.cons.inj h).2).1.symm hclosing
    | cons y ys =>
      rw [block_cons, block_cons] at h
      simp only [List.cons_append, List.append_assoc] at h
      have hitems := List.append_cancel_left (List.cons.inj (List.cons.inj h).2).2
      have hfirst : Separable x y := hxy (x, y) (by simp)
      obtain ⟨rfl, hrest⟩ := hfirst _ _ hitems
      obtain ⟨rfl, hrs⟩ := blockRest_append_inj (fun p hp => hxy p (by simp [hp])) hrest
      exact ⟨rfl, hrs⟩

private theorem selfDelimiting_array {α : Type} {write : α → Text} (hwrite : SelfDelimiting write) (depth : Nat) :
    SelfDelimiting fun items : List α => array depth (items.map write) := by
  intro as bs r s h
  have hxy : ∀ p ∈ (as.map write).zip (bs.map write), Separable p.1 p.2 := by
    intro p hp
    rw [List.zip_map] at hp
    obtain ⟨⟨a, b⟩, -, rfl⟩ := List.mem_map.mp hp
    exact hwrite.separable a b
  obtain ⟨hitems, hrest⟩ := block_append_inj (by decide) hxy h
  exact ⟨List.map_inj_right (fun _ _ => hwrite.injective) |>.mp hitems, hrest⟩

/-- One field of a record: its key, what it shows of the record, and how that is written. -/
structure RecordField (α : Type) where
  key : String
  {value : Type}
  view : α → value
  write : value → Text
  selfDelimiting : SelfDelimiting write

/-- A record is an object that has the same keys whatever the record holds. -/
def record {α : Type} (depth : Nat) (fields : List (RecordField α)) (a : α) : Text :=
  object depth (fields.map fun field => (field.key, field.write (field.view a)))

def RecordField.item {α : Type} (field : RecordField α) (a : α) : Text :=
  string field.key.toList ++ [':', ' '] ++ field.write (field.view a)

private theorem RecordField.separable_item {α : Type} (field : RecordField α) (a b : α) :
    Separable (field.item a) (field.item b) :=
  (field.selfDelimiting.separable (field.view a) (field.view b)).append_left _

private theorem record_eq_block {α : Type} (depth : Nat) (fields : List (RecordField α)) (a : α) :
    record depth fields a = block '\x7b' '\x7d' depth (fields.map (·.item a)) := by
  unfold record object
  rw [List.map_map]
  rfl

private theorem record_append_inj {α : Type} {depth : Nat} {fields : List (RecordField α)} {a b : α} {r s : Text}
    (h : record depth fields a ++ r = record depth fields b ++ s) :
    (∀ field ∈ fields, field.view a = field.view b) ∧ r = s := by
  rw [record_eq_block, record_eq_block] at h
  have hxy : ∀ p ∈ (fields.map (·.item a)).zip (fields.map (·.item b)), Separable p.1 p.2 := by
    intro p hp
    rw [List.zip_map'] at hp
    obtain ⟨field, -, rfl⟩ := List.mem_map.mp hp
    exact field.separable_item a b
  obtain ⟨hitems, hrest⟩ := block_append_inj (by decide) hxy h
  refine ⟨fun field hfield => ?_, hrest⟩
  have hitem : field.item a = field.item b := List.map_inj_left.mp hitems field hfield
  exact field.selfDelimiting.injective (List.append_cancel_left hitem)

/-- A record whose fields show all of it is written so that nothing is lost. -/
theorem selfDelimiting_record {α : Type} {fields : List (RecordField α)} (depth : Nat)
    (hfields : ∀ a b, (∀ field ∈ fields, field.view a = field.view b) → a = b) :
    SelfDelimiting (record depth fields) := by
  intro a b r s h
  obtain ⟨hviews, hrest⟩ := record_append_inj h
  exact ⟨hfields a b hviews, hrest⟩

end Json

open Json

private theorem Visibility.selfDelimiting_name : SelfDelimiting fun v : Visibility => string v.name := by
  intro v w r s h
  obtain ⟨hname, hrest⟩ := selfDelimiting_string _ _ r s h
  refine ⟨?_, hrest⟩
  revert hname
  cases v <;> cases w <;> decide

namespace Attribute

def jsonFields : List (RecordField Attribute) :=
  [⟨"visibility", visibility, fun v => string v.name, Visibility.selfDelimiting_name⟩,
    ⟨"type_name", typeName, string, selfDelimiting_string⟩, ⟨"name", name, string, selfDelimiting_string⟩]

private theorem json_eq_record (depth : Nat) : Attribute.json depth = record depth jsonFields := rfl

private theorem selfDelimiting_json (depth : Nat) : SelfDelimiting (Attribute.json depth) := by
  rw [json_eq_record]
  apply selfDelimiting_record
  intro a b h
  simp only [jsonFields, List.forall_mem_cons] at h
  obtain ⟨hvisibility, htype, hname, -⟩ := h
  cases a
  cases b
  congr

end Attribute

namespace Method

def jsonFields : List (RecordField Method) :=
  [⟨"visibility", visibility, fun v => string v.name, Visibility.selfDelimiting_name⟩,
    ⟨"return_type", returnType, string, selfDelimiting_string⟩, ⟨"name", name, string, selfDelimiting_string⟩,
    ⟨"parameters", parameters, string, selfDelimiting_string⟩]

private theorem json_eq_record (depth : Nat) : Method.json depth = record depth jsonFields := rfl

private theorem selfDelimiting_json (depth : Nat) : SelfDelimiting (Method.json depth) := by
  rw [json_eq_record]
  apply selfDelimiting_record
  intro m n h
  simp only [jsonFields, List.forall_mem_cons] at h
  obtain ⟨hvisibility, htype, hname, hparameters, -⟩ := h
  cases m
  cases n
  congr

end Method

namespace ClassDecl

def jsonFields (depth : Nat) : List (RecordField ClassDecl) :=
  [⟨"name", name, string, selfDelimiting_string⟩, ⟨"is_abstract", isAbstract, bool, selfDelimiting_bool⟩,
    ⟨"parent", parent, fun p => p.elim null string, selfDelimiting_optional⟩,
    ⟨"attributes", attributes, fun items => array (depth + 1) (items.map (Attribute.json (depth + 2))),
      selfDelimiting_array (Attribute.selfDelimiting_json _) _⟩,
    ⟨"methods", methods, fun items => array (depth + 1) (items.map (Method.json (depth + 2))),
      selfDelimiting_array (Method.selfDelimiting_json _) _⟩]

private theorem json_eq_record (depth : Nat) : ClassDecl.json depth = record depth (jsonFields depth) := rfl

private theorem selfDelimiting_json (depth : Nat) : SelfDelimiting (ClassDecl.json depth) := by
  rw [json_eq_record]
  apply selfDelimiting_record
  intro c d h
  simp only [jsonFields, List.forall_mem_cons] at h
  obtain ⟨hname, habstract, hparent, hattributes, hmethods, -⟩ := h
  cases c
  cases d
  congr

end ClassDecl

namespace EnumDecl

def jsonFields : List (RecordField EnumDecl) :=
  [⟨"name", name, string, selfDelimiting_string⟩, ⟨"raw_values", values, string, selfDelimiting_string⟩]

private theorem json_eq_record (depth : Nat) : EnumDecl.json depth = record depth jsonFields := rfl

private theorem selfDelimiting_json (depth : Nat) : SelfDelimiting (EnumDecl.json depth) := by
  rw [json_eq_record]
  apply selfDelimiting_record
  intro e f h
  simp only [jsonFields, List.forall_mem_cons] at h
  obtain ⟨hname, hvalues, -⟩ := h
  cases e
  cases f
  congr

end EnumDecl

namespace Model

def jsonFields : List (RecordField Model) :=
  [⟨"classes", classes, fun items => array 1 (items.map (ClassDecl.json 2)),
      selfDelimiting_array (ClassDecl.selfDelimiting_json _) _⟩,
    ⟨"enums", enums, fun items => array 1 (items.map (EnumDecl.json 2)),
      selfDelimiting_array (EnumDecl.selfDelimiting_json _) _⟩]

private theorem json_eq_record : Model.json = record 0 jsonFields := rfl

private theorem selfDelimiting_json : SelfDelimiting Model.json := by
  rw [json_eq_record]
  apply selfDelimiting_record
  intro m n h
  simp only [jsonFields, List.forall_mem_cons] at h
  obtain ⟨hclasses, henums, -⟩ := h
  cases m
  cases n
  congr

/-- The JSON text of a model determines it, whatever stands in its strings. -/
theorem json_determines_model (m n : Model) : m.json = n.json ↔ m = n :=
  ⟨selfDelimiting_json.injective, congrArg json⟩

end Model
end ClassNotation
