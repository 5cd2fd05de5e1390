import ClassNotation.Outline

/-! The table of links against its declarative reading: names in the order in which the relations
first mention them, and under each name what the relations add to it, one after the other. -/
namespace ClassNotation

namespace Relation

/-- The names that a relation mentions, the source first. -/
def ends (r : Relation) : List Text := [r.source, r.target]

/-- What one relation adds to a name. A self link that is plain adds both of its directions. -/
def linksOf (name : Text) (r : Relation) : List Link :=
  match r.arrow with
  | .plain =>
    (if r.source = name then [⟨r.target, r.targetCardinality⟩] else []) ++
      (if r.target = name then [⟨r.source, r.sourceCardinality⟩] else [])
  | .forward | .backward =>
    if r.source = name then [⟨r.target, r.targetCardinality <|> r.sourceCardinality⟩] else []

end Relation

namespace Links

def names (links : Links) : List Text := links.map Prod.fst

private theorem lookup_cons_of_ne {n m : Text} (h : n ≠ m) (found : List Link) (rest : Links) :
    List.lookup n ((m, found) :: rest) = List.lookup n rest := by
  rw [List.lookup_cons, beq_eq_false_iff_ne.mpr h]

private theorem names_add (name : Text) (new : List Link) (links : Links) :
    (add name new links).names = if name ∈ links.names then links.names else links.names ++ [name] := by
  induction links with
  | nil => rfl
  | cons entry rest ih =>
    obtain ⟨n, old⟩ := entry
    unfold add
    by_cases hn : n = name
    · simp [names, hn]
    · rw [if_neg hn]
      change n :: names (add name new rest) = _
      rw [ih]
      have hm : name ∈ names ((n, old) :: rest) ↔ name ∈ names rest := by simp [names, Ne.symm hn]
      simp only [hm]
      split <;> rfl

private theorem lookup_add (name : Text) (new : List Link) (links : Links) (n : Text) :
    (add name new links).lookup n =
      if n = name then some (links.of name ++ new) else links.lookup n := by
  induction links with
  | nil =>
    by_cases h : n = name
    · simp [add, of, h]
    · rw [add, lookup_cons_of_ne h, if_neg h]
  | cons entry rest ih =>
    obtain ⟨m, old⟩ := entry
    unfold add
    by_cases hm : m = name
    · subst hm
      by_cases h : n = m
      · simp [of, h]
      · rw [if_pos rfl, if_neg h, lookup_cons_of_ne h, lookup_cons_of_ne h]
    · have ho : of ((m, old) :: rest) name = of rest name := by
        rw [of, lookup_cons_of_ne (Ne.symm hm), ← of]
      rw [if_neg hm, ho]
      by_cases h : n = m
      · simp [h, hm]
      · rw [lookup_cons_of_ne h, lookup_cons_of_ne h, ih]

private theorem of_add (name : Text) (new : List Link) (links : Links) (n : Text) :
    (add name new links).of n = links.of n ++ if n = name then new else [] := by
  unfold of
  rw [lookup_add]
  by_cases h : n = name <;> simp [h, of]

private theorem names_add_eraseDups {seen : List Text} {links : Links} (h : links.names = seen.eraseDups)
    (name : Text) (new : List Link) : (add name new links).names = (seen ++ [name]).eraseDups := by
  rw [names_add, h, List.eraseDups_append]
  by_cases hn : name ∈ seen <;> simp [List.mem_eraseDups, List.removeAll, List.eraseDups_cons, hn]

private theorem names_add_of_mem {links : Links} {name : Text} (h : name ∈ links.names) (new : List Link) :
    (add name new links).names = links.names := by
  rw [names_add, if_pos h]

private theorem names_addRelation {seen : List Text} {links : Links} (h : links.names = seen.eraseDups)
    (r : Relation) : (addRelation links r).names = (seen ++ r.ends).eraseDups := by
  have hb : (add r.target [] (add r.source [] links)).names = (seen ++ r.ends).eraseDups := by
    rw [names_add_eraseDups (names_add_eraseDups h r.source []) r.target []]
    simp [Relation.ends]
  have hs : r.source ∈ (add r.target [] (add r.source [] links)).names := by
    simp [hb, List.mem_eraseDups, Relation.ends]
  have ht : r.target ∈ (add r.target [] (add r.source [] links)).names := by
    simp [hb, List.mem_eraseDups, Relation.ends]
  unfold addRelation
  split
  · rw [names_add_of_mem, names_add_of_mem hs, hb]
    rwa [names_add_of_mem hs]
  all_goals rw [names_add_of_mem hs, hb]

private theorem of_addRelation (links : Links) (r : Relation) (name : Text) :
    (addRelation links r).of name = links.of name ++ r.linksOf name := by
  unfold addRelation Relation.linksOf
  cases r.arrow <;> simp only [of_add, ite_self, List.append_nil, List.append_assoc, eq_comm]

private theorem names_foldl_addRelation {seen : List Text} {links : Links} (h : links.names = seen.eraseDups)
    (rs : List Relation) :
    (rs.foldl addRelation links).names = (seen ++ rs.flatMap Relation.ends).eraseDups := by
  induction rs generalizing seen links with
  | nil => simpa using h
  | cons r rs ih =>
    rw [List.foldl_cons, ih (names_addRelation h r), List.flatMap_cons, List.append_assoc]

private theorem of_foldl_addRelation (links : Links) (rs : List Relation) (name : Text) :
    (rs.foldl addRelation links).of name = links.of name ++ rs.flatMap (Relation.linksOf name) := by
  induction rs generalizing links with
  | nil => simp
  | cons r rs ih => rw [List.foldl_cons, ih, of_addRelation, List.flatMap_cons, List.append_assoc]

theorem names_ofRelations (rs : List Relation) :
    (ofRelations rs).names = (rs.flatMap Relation.ends).eraseDups := by
  have h : names [] = ([] : List Text).eraseDups := rfl
  exact names_foldl_addRelation h rs

theorem of_ofRelations (rs : List Relation) (name : Text) :
    (ofRelations rs).of name = rs.flatMap (Relation.linksOf name) := by
  rw [ofRelations, of_foldl_addRelation]
  rfl

end Links

end ClassNotation
