import ClassNotation.Proofs.MemberSegments

/-! The members of a class body. They are what its segments are, line by line, so it makes no
difference that a line is tried as a whole before it is cut, and a line has no part in what becomes of
another one. -/
namespace ClassNotation

/-- The members of a class, attributes and methods apart, each in the order of the body. -/
structure BodyMembers where
  attributes : List Attribute
  methods : List Method
  deriving DecidableEq, Repr

namespace BodyMembers

def ofList : List Member → BodyMembers
  | [] => ⟨[], []⟩
  | .ofAttribute a :: ms => ⟨a :: (ofList ms).attributes, (ofList ms).methods⟩
  | .ofMethod m :: ms => ⟨(ofList ms).attributes, m :: (ofList ms).methods⟩

def ofBody (className body : Text) : BodyMembers :=
  ⟨Finding.attributes (Finding.ofBody className body), Finding.methods (Finding.ofBody className body)⟩

def append (m n : BodyMembers) : BodyMembers := ⟨m.attributes ++ n.attributes, m.methods ++ n.methods⟩

instance : Append BodyMembers := ⟨append⟩

private theorem ofList_append (ms ns : List Member) : ofList (ms ++ ns) = ofList ms ++ ofList ns := by
  induction ms with
  | nil => rfl
  | cons m ms ih =>
    cases m <;> rw [List.cons_append, ofList, ih] <;> rfl

private theorem ofList_eq_filterMap (ms : List Member) :
    ofList ms = ⟨ms.filterMap Member.attribute?, ms.filterMap Member.method?⟩ := by
  induction ms with
  | nil => rfl
  | cons m ms ih =>
    cases m <;> rw [ofList, ih] <;> rfl

/-- Every member is an attribute or a method. -/
theorem length_ofList (ms : List Member) :
    (ofList ms).attributes.length + (ofList ms).methods.length = ms.length := by
  induction ms with
  | nil => rfl
  | cons m ms ih =>
    cases m <;> simp only [ofList, List.length_cons] <;> omega

end BodyMembers

namespace Finding
variable (className : Text)

private theorem member?_ofSegment (alone : Bool) (segment : Text) :
    (ofSegment className alone segment).member? = Member.ofLine? className segment := by
  unfold ofSegment
  split
  · next m hm => exact hm.symm
  · next hm => cases alone <;> exact hm.symm

/-- The members of a body are its segments that are members. -/
theorem filterMap_member?_ofBody (body : Text) :
    (ofBody className body).filterMap member? = (Member.bodySegments body).filterMap (Member.ofLine? className) := by
  rw [ofBody_eq_flatMap, Member.bodySegments, List.filterMap_flatMap, List.filterMap_flatMap]
  simp only [List.filterMap_map, Function.comp_def, member?_ofSegment]

end Finding

namespace Member

theorem bodyLines_of_not_mem {x : Text} (hx : '\n' ∉ x) : bodyLines x = [Text.trim x].filter (!·.isEmpty) := by
  by_cases hne : x = []
  · subst hne
    rfl
  · rw [bodyLines, Text.lines_of_not_mem hx hne, List.map_singleton]

private theorem bodyLines_append_line {x : Text} (hx : '\n' ∉ x) (t : Text) :
    bodyLines (x ++ '\n' :: t) = bodyLines x ++ bodyLines t := by
  obtain ⟨y, hlines, hy⟩ := Text.exists_lines_append hx t
  have htrim : Text.trim x = Text.trim y := by
    rcases hy with rfl | ⟨rfl, -⟩
    · -- a carriage return is a blank
      exact Text.trim_append_blanks (List.all_eq_true.mp (by decide)) y
    · rfl
  rw [bodyLines_of_not_mem hx, htrim, bodyLines, bodyLines, hlines]
  exact List.filter_append [Text.trim y] _

/-- Bodies with a newline between them have the lines of both. -/
theorem bodyLines_append (b₁ b₂ : Text) : bodyLines (b₁ ++ '\n' :: b₂) = bodyLines b₁ ++ bodyLines b₂ := by
  induction b₁ using Text.line_induction with
  | last x hx => exact bodyLines_append_line hx b₂
  | line x t hx ih =>
    rw [List.append_assoc, List.cons_append, bodyLines_append_line hx, ih, bodyLines_append_line hx, List.append_assoc]

theorem bodySegments_append (b₁ b₂ : Text) :
    bodySegments (b₁ ++ '\n' :: b₂) = bodySegments b₁ ++ bodySegments b₂ := by
  rw [bodySegments, bodyLines_append, List.flatMap_append]
  rfl

end Member

namespace BodyMembers
variable (className : Text)

/-- What the lines of a body are, each cut into its segments. -/
theorem ofBody_eq_ofList (body : Text) :
    ofBody className body = ofList ((Member.bodySegments body).filterMap (Member.ofLine? className)) := by
  rw [ofBody, ofList_eq_filterMap, ← Finding.filterMap_member?_ofBody, List.filterMap_filterMap,
    List.filterMap_filterMap]
  rfl

private theorem ofBody_append (b₁ b₂ : Text) :
    ofBody className (b₁ ++ '\n' :: b₂) = ofBody className b₁ ++ ofBody className b₂ := by
  simp only [ofBody_eq_ofList, Member.bodySegments_append, List.filterMap_append, ofList_append]

private theorem nil_append (m : BodyMembers) : ofList [] ++ m = m := rfl

end BodyMembers

/-- A trimmed line that is a member is its own only segment. So a body holds the members among all
segments of its lines, attributes and methods each in their order, bodies with a newline between them
hold what each of them holds, and lines that hold no member can be left out. -/
theorem whole_lines_read_as_segments (className : Text) :
    (∀ line m, Text.trim line = line → line ≠ [] → Member.ofLine? className line = some m →
      Member.segments line = [line]) ∧
    (∀ body,
      let members := (Member.bodySegments body).filterMap (Member.ofLine? className)
      (Finding.ofBody className body).filterMap Finding.member? = members ∧
      BodyMembers.ofBody className body = .ofList members) ∧
    (∀ b₁ b₂, BodyMembers.ofBody className (b₁ ++ '\n' :: b₂) =
      BodyMembers.ofBody className b₁ ++ BodyMembers.ofBody className b₂) ∧
    ∀ b₁ line b₂, BodyMembers.ofBody className line = .ofList [] →
      BodyMembers.ofBody className (b₁ ++ '\n' :: (line ++ '\n' :: b₂)) =
        BodyMembers.ofBody className (b₁ ++ '\n' :: b₂) := by
  refine ⟨fun line m htrim hne hm => Member.segments_of_ofLine? hm htrim hne,
    fun body => ⟨Finding.filterMap_member?_ofBody className body, BodyMembers.ofBody_eq_ofList className body⟩,
    BodyMembers.ofBody_append className, fun b₁ line b₂ hline => ?_⟩
  rw [BodyMembers.ofBody_append, BodyMembers.ofBody_append, hline, BodyMembers.nil_append, BodyMembers.ofBody_append]

/-- A symbol among the parameters is no place to cut, and a line with an open parenthesis hides nothing
of the next line. -/
theorem whole_lines_read_as_segments_parameters :
    let line := "# int f(x, -y)".toList
    let noise := "-- (+int z".toList
    (Text.trim line = line ∧ (Member.ofLine? "A".toList line).isSome = true ∧ Member.segments line = [line]) ∧
    BodyMembers.ofBody "A".toList noise = .ofList [] ∧
    BodyMembers.ofBody "A".toList (line ++ '\n' :: (noise ++ '\n' :: "-int z".toList)) =
      BodyMembers.ofBody "A".toList (line ++ '\n' :: "-int z".toList) := by
  intro line noise
  obtain ⟨hwhole, -, -, hneighbours⟩ := whole_lines_read_as_segments "A".toList
  have hline : Member.ofLine? "A".toList line = some (.ofMethod ⟨.prot, "int".toList, "f".toList, "x, -y".toList⟩) := by
    decide
  have hnoise : BodyMembers.ofBody "A".toList noise = .ofList [] := by decide
  exact ⟨⟨by decide, by rw [hline]; rfl, hwhole line _ (by decide) (by decide) hline⟩, hnoise,
    hneighbours line noise "-int z".toList hnoise⟩

end ClassNotation
