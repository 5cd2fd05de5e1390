import ClassNotation.Proofs.BodyMembers

/-! Members on one line. Members that begin with a symbol may be written one behind the other or each
on a line of its own. The line is cut where no parenthesis is open, but a parameter list ends at the
first closing parenthesis; so a list with another opening parenthesis in it leaves one open, and from
there on the line is not cut any more. -/
namespace ClassNotation

namespace Text

private theorem joinWith_cons_cons (c : Char) (t u : Text) (texts : List Text) :
    joinWith [c] (t :: u :: texts) = t ++ c :: joinWith [c] (u :: texts) := by
  simp [joinWith]

def appendFirst (x : Text) : List Text → List Text
  | [] => [x]
  | piece :: rest => (x ++ piece) :: rest

private theorem consFirst_appendFirst (c : Char) (x : Text) (pieces : List Text) :
    consFirst c (appendFirst x pieces) = appendFirst (c :: x) pieces := by
  cases pieces <;> rfl

theorem consFirst_eq_singleton {c : Char} {x : Text} {pieces : List Text} (hne : pieces ≠ [])
    (h : consFirst c pieces = [c :: x]) : pieces = [x] := by
  obtain ⟨first, rest, rfl⟩ := List.exists_cons_of_ne_nil hne
  simpa [consFirst] using h

end Text

namespace Member
variable {depth : Nat} {afterBlank : Bool} {t u x : Text}

theorem cutPieces_ne_nil (depth : Nat) (afterBlank : Bool) (t : Text) : cutPieces depth afterBlank t ≠ [] := by
  cases t with
  | nil => simp [cutPieces]
  | cons c t =>
    obtain ⟨first, rest, he⟩ := Text.exists_consFirst c (cutPieces (depthAfter depth c) (isBlank c) t)
    unfold cutPieces
    split <;> simp [he]

private theorem cutPieces_append (hx : cutPieces depth afterBlank x = [x]) (y : Text) :
    cutPieces depth afterBlank (x ++ y) =
      Text.appendFirst x (cutPieces (depthOver depth x) (x.foldl (fun _ c => isBlank c) afterBlank) y) := by
  induction x generalizing depth afterBlank with
  | nil =>
    obtain ⟨first, rest, he⟩ := List.exists_cons_of_ne_nil (cutPieces_ne_nil depth afterBlank y)
    change cutPieces depth afterBlank y = Text.appendFirst [] (cutPieces depth afterBlank y)
    rw [he]
    rfl
  | cons c x ih =>
    unfold cutPieces at hx
    split at hx
    · simp at hx
    · next hcut =>
      have hrest := Text.consFirst_eq_singleton (cutPieces_ne_nil _ _ x) hx
      rw [List.cons_append, cutPieces, if_neg hcut, ih hrest, Text.consFirst_appendFirst]
      rfl

/-- The depth never falls below what it was before the text. -/
def Climbs (t : Text) : Prop := ∀ depth p, p <+: t → depth ≤ depthOver depth p

private theorem climbs_of_not_mem (h : ')' ∉ t) : Climbs t :=
  fun depth _ hp => le_depthOver (fun hm => h (hp.subset hm)) depth

private theorem Climbs.append (ht : Climbs t) (hu : Climbs u) : Climbs (t ++ u) := by
  rintro depth p ⟨q, he⟩
  rcases List.append_eq_append_iff.mp he with ⟨v, rfl, -⟩ | ⟨v, rfl, rfl⟩
  · exact ht depth p (List.prefix_append p v)
  · rw [depthOver_append]
    exact Nat.le_trans (ht depth t (List.prefix_refl t)) (hu _ v (List.prefix_append v q))

private theorem Climbs.space_cons (ht : Climbs t) : Climbs (' ' :: t) :=
  Climbs.append (t := [' ']) (climbs_of_not_mem (by decide)) ht

private theorem depthOver_eq_self (h : '(' ∉ t ∧ ')' ∉ t) (depth : Nat) : depthOver depth t = depth := by
  induction t with
  | nil => rfl
  | cons c t ih =>
    have hstep : depthAfter depth c = depth := by
      have hc : c ≠ '(' ∧ c ≠ ')' := ⟨fun he => h.1 (by simp [he]), fun he => h.2 (by simp [he])⟩
      rw [depthAfter, if_neg hc.1, if_neg hc.2]
    change depthOver (depthAfter depth c) t = depth
    rw [hstep]
    exact ih ⟨fun hm => h.1 (List.mem_cons_of_mem c hm), fun hm => h.2 (List.mem_cons_of_mem c hm)⟩

private theorem lt_depthOver (hopen : '(' ∈ t) (hclose : ')' ∉ t) (depth : Nat) : depth < depthOver depth t := by
  obtain ⟨x, y, rfl⟩ := List.append_of_mem hopen
  have hx := le_depthOver (fun hm => hclose (List.mem_append_left _ hm)) depth
  have hy := le_depthOver (t := y) (fun hm => hclose (by simp [hm])) (depthOver depth x + 1)
  rw [depthOver_append]
  change depth < depthOver (depthOver depth x + 1) y
  omega

private theorem depthOver_parameters (ps : Text) (depth : Nat) :
    depthOver depth ('(' :: (ps ++ [')'])) = depthOver (depth + 1) ps - 1 := by
  change depthOver (depth + 1) (ps ++ [')']) = _
  rw [depthOver_append]
  rfl

private theorem climbs_parameters {ps : Text} (hps : ')' ∉ ps) : Climbs ('(' :: (ps ++ [')'])) := by
  intro depth p hp
  rcases List.prefix_cons_iff.mp hp with rfl | ⟨q, rfl, hq⟩
  · exact Nat.le_refl depth
  · rcases List.prefix_concat_iff.mp hq with rfl | hq
    · have hle := le_depthOver hps (depth + 1)
      rw [depthOver_parameters]
      omega
    · have hle := le_depthOver (fun hm => hps (hq.subset hm)) (depth + 1)
      change depth ≤ depthOver (depth + 1) q
      omega

end Member

namespace MethodForm

private theorem depthOver_text (f : MethodForm) (depth : Nat) :
    Member.depthOver depth f.text = Member.depthOver (depth + 1) f.parameters - 1 := by
  rw [text_eq, Member.depthOver_append, Member.depthOver_eq_self f.no_parentheses_front, Member.depthOver_parameters]

end MethodForm

/-- A method that has an opening parenthesis among its parameters. -/
def HasStray (t : Text) : Prop := ∃ f : MethodForm, f.text = t ∧ '(' ∈ f.parameters

private theorem HasStray.depthOver_pos {t : Text} (h : HasStray t) : 0 < Member.depthOver 0 t := by
  obtain ⟨f, rfl, hopen⟩ := h
  have hlt := Member.lt_depthOver hopen f.close_not_mem (0 + 1)
  rw [f.depthOver_text]
  omega

/-- What a member text has in common with several of them on one line: it begins with a symbol, ends
in no blank, closes no parenthesis that it has not opened, and is one line. -/
structure IsMemberRun (t : Text) : Prop where
  symbol : ∃ c u, c ∈ Visibility.symbols ∧ t = c :: u
  stops_reverse : Stops isBlank t.reverse
  climbs : Member.Climbs t
  newline : '\n' ∉ t

namespace IsMemberRun
variable {t u : Text}

private theorem ne_nil (ht : IsMemberRun t) : t ≠ [] := by
  obtain ⟨c, u, -, rfl⟩ := ht.symbol
  simp

private theorem trim (ht : IsMemberRun t) : Text.trim t = t := by
  refine Text.trim_append (b := []) (by simp) ?_ ht.stops_reverse
  obtain ⟨c, u, hc, rfl⟩ := ht.symbol
  exact stops_cons.mpr (Member.isBlank_of_ofSymbol? (Visibility.isSome_ofSymbol?_iff.mpr hc))

private theorem append_space (ht : IsMemberRun t) (hu : IsMemberRun u) : IsMemberRun (t ++ ' ' :: u) where
  symbol := by
    obtain ⟨c, v, hc, rfl⟩ := ht.symbol
    exact ⟨c, v ++ ' ' :: u, hc, rfl⟩
  stops_reverse := by
    have hreverse : (t ++ ' ' :: u).reverse = u.reverse ++ ' ' :: t.reverse := by simp
    rw [hreverse]
    exact hu.stops_reverse.append (by simpa using hu.ne_nil) _
  climbs := ht.climbs.append hu.climbs.space_cons
  newline := by simp [ht.newline, hu.newline]

private theorem bodyLines (ht : IsMemberRun t) : Member.bodyLines t = [t] := by
  rw [Member.bodyLines_of_not_mem ht.newline, ht.trim, List.filter_cons, if_pos (by simpa using ht.ne_nil)]
  rfl

end IsMemberRun

/-- A member that begins with a symbol and has no newline in it. -/
structure IsMemberText (t : Text) : Prop where
  symbol : ∃ c u, c ∈ Visibility.symbols ∧ t = c :: u
  form : (∃ f : MethodForm, f.text = t) ∨ ∃ f : AttributeForm, f.text = t
  newline : '\n' ∉ t

namespace IsMemberText
variable {t u : Text} {texts : List Text}

private theorem isMemberRun (ht : IsMemberText t) : IsMemberRun t := by
  refine ⟨ht.symbol, ?_, ?_, ht.newline⟩
  · rcases ht.form with ⟨f, rfl⟩ | ⟨f, rfl⟩
    · simp [f.text_eq]
    · have he : f.text.reverse = f.name.reverse ++ (f.start.text ++ (f.typeName ++ f.gap)).reverse := by
        simp [AttributeForm.text]
      rw [he]
      exact f.isWord_name.reverse.stops_isBlank _
  · rcases ht.form with ⟨f, rfl⟩ | ⟨f, rfl⟩
    · rw [f.text_eq]
      exact (Member.climbs_of_not_mem f.no_parentheses_front.2).append (Member.climbs_parameters f.close_not_mem)
    · exact Member.climbs_of_not_mem f.no_parentheses.2

/-- A stray parenthesis is the only thing that a member leaves open. -/
theorem depthOver_eq_zero (ht : IsMemberText t) (h : ¬ HasStray t) : Member.depthOver 0 t = 0 := by
  rcases ht.form with ⟨f, rfl⟩ | ⟨f, rfl⟩
  · have hopen : '(' ∉ f.parameters := fun hm => h ⟨f, rfl, hm⟩
    rw [f.depthOver_text, Member.depthOver_eq_self ⟨hopen, f.close_not_mem⟩]
  · exact Member.depthOver_eq_self f.no_parentheses 0

private theorem exists_ofLine? (ht : IsMemberText t) (className : Text) : ∃ m, Member.ofLine? className t = some m := by
  rcases ht.form with ⟨f, rfl⟩ | ⟨f, rfl⟩
  · exact ⟨_, Member.ofLine?_methodForm f⟩
  · exact ⟨_, Member.ofLine?_attributeForm f⟩

private theorem cutPieces (ht : IsMemberText t) : Member.cutPieces 0 false t = [t] := by
  obtain ⟨m, hm⟩ := ht.exists_ofLine? []
  exact (Member.seamless_of_ofLine? hm).cutPieces

private theorem segments (ht : IsMemberText t) : Member.segments t = [t] := by
  rw [Member.segments_eq_map_trim ht.isMemberRun.trim ht.isMemberRun.ne_nil, ht.cutPieces, List.map_singleton,
    ht.isMemberRun.trim]

private theorem bodySegments (ht : IsMemberText t) : Member.bodySegments t = [t] := by
  rw [Member.bodySegments, ht.isMemberRun.bodyLines, List.flatMap_singleton, ht.segments]

/-- Where nothing is open behind a member the line is cut before the next symbol. -/
theorem segments_append_space (ht : IsMemberText t) (hstray : ¬ HasStray t) (hu : IsMemberRun u) :
    Member.segments (t ++ ' ' :: u) = t :: Member.segments u := by
  obtain ⟨c, v, hc, rfl⟩ := hu.symbol
  have hsymbol : (Visibility.ofSymbol? c).isSome = true := Visibility.isSome_ofSymbol?_iff.mpr hc
  have hnext : Member.cutPieces 0 true (c :: v) = [] :: Member.cutPieces 0 false (c :: v) := by
    simp [Member.cutPieces, hsymbol]
  have hspace (b : Bool) : Member.cutPieces 0 b (' ' :: c :: v) = [' '] :: Member.cutPieces 0 false (c :: v) := by
    rw [Member.cutPieces, Member.depthAfter_of_front (Or.inr isBlank_space), isBlank_space, hnext]
    rfl
  have hcut : Member.cutPieces 0 false (t ++ ' ' :: c :: v) = (t ++ [' ']) :: Member.cutPieces 0 false (c :: v) := by
    rw [Member.cutPieces_append ht.cutPieces, ht.depthOver_eq_zero hstray, hspace]
    rfl
  have htrim : Text.trim (t ++ [' ']) = t := (Text.trim_append_blanks (by simp) t).trans ht.isMemberRun.trim
  rw [Member.segments, hcut, List.map_cons, htrim, List.filter_cons, if_pos (by simpa using ht.isMemberRun.ne_nil)]
  rfl

/-- Where a parenthesis is open behind a member the line is not cut any more. -/
theorem segments_append_of_stray (ht : IsMemberText t) (hstray : HasStray t) (hu : IsMemberRun u) :
    Member.segments (t ++ ' ' :: u) = [t ++ ' ' :: u] := by
  have hline := ht.isMemberRun.append_space hu
  have hopen : ∀ p q, ' ' :: u = p ++ q → q ≠ [] → Member.depthOver (Member.depthOver 0 t) p ≠ 0 := by
    intro p q he _
    have hpos := hstray.depthOver_pos
    have hle := hu.climbs.space_cons (Member.depthOver 0 t) p ⟨q, he.symm⟩
    omega
  have hcut : Member.cutPieces 0 false (t ++ ' ' :: u) = [t ++ ' ' :: u] := by
    rw [Member.cutPieces_append ht.cutPieces, Member.cutPieces_of_open hopen]
    rfl
  rw [Member.segments_eq_map_trim hline.trim hline.ne_nil, hcut, List.map_singleton, hline.trim]

end IsMemberText

private theorem HasStray.ofLine?_append_eq_none {className t rest : Text} (h : HasStray t) (hrest : rest ≠ []) :
    Member.ofLine? className (t ++ rest) = none := by
  obtain ⟨f, rfl, -⟩ := h
  have hclose {g : MethodForm} : ')' ∉ g.front ++ '(' :: g.parameters := by
    simp [g.no_parentheses_front.2, g.close_not_mem]
  have htext (g : MethodForm) : g.text = (g.front ++ '(' :: g.parameters) ++ [')'] := by simp [g.text_eq]
  rw [Member.ofLine?_eq_none_iff]
  constructor
  · rintro ⟨g, hg⟩
    rw [htext, htext, List.append_assoc (_ ++ _)] at hg
    obtain ⟨-, hnil⟩ := append_cons_unique hg hclose hclose
    exact hrest hnil.symm
  · rintro ⟨g, hg⟩
    refine g.no_parentheses.2 ?_
    rw [hg, htext]
    simp

section Lines
variable {t : Text} {texts : List Text}

private theorem isMemberRun_joinWith (h : ∀ u ∈ t :: texts, IsMemberText u) :
    IsMemberRun (Text.joinWith [' '] (t :: texts)) := by
  induction texts generalizing t with
  | nil => exact (h t List.mem_cons_self).isMemberRun
  | cons u texts ih =>
    rw [Text.joinWith_cons_cons]
    exact (h t List.mem_cons_self).isMemberRun.append_space (ih fun v hv => h v (List.mem_cons_of_mem t hv))

/-- Members on lines of their own are the segments of the body. -/
theorem bodySegments_joinWith_newline (h : ∀ u ∈ t :: texts, IsMemberText u) :
    Member.bodySegments (Text.joinWith ['\n'] (t :: texts)) = t :: texts := by
  have ht := (h t List.mem_cons_self).bodySegments
  induction texts generalizing t with
  | nil => exact ht
  | cons u texts ih =>
    have hrest : ∀ v ∈ u :: texts, IsMemberText v := fun v hv => h v (List.mem_cons_of_mem t hv)
    rw [Text.joinWith_cons_cons, Member.bodySegments_append, ht, ih hrest (hrest u List.mem_cons_self).bodySegments]
    rfl

/-- Members on one line are its segments, if nothing is left open before the last of them. -/
theorem segments_joinWith_space (h : ∀ u ∈ t :: texts, IsMemberText u)
    (hstray : ∀ u ∈ (t :: texts).dropLast, ¬ HasStray u) :
    Member.segments (Text.joinWith [' '] (t :: texts)) = t :: texts := by
  have ht := h t List.mem_cons_self
  induction texts generalizing t with
  | nil => exact ht.segments
  | cons u texts ih =>
    have hrest : ∀ v ∈ u :: texts, IsMemberText v := fun v hv => h v (List.mem_cons_of_mem t hv)
    rw [List.dropLast_cons_cons] at hstray
    rw [Text.joinWith_cons_cons, ht.segments_append_space (hstray t List.mem_cons_self) (isMemberRun_joinWith hrest),
      ih hrest (fun v hv => hstray v (List.mem_cons_of_mem t hv)) (hrest u List.mem_cons_self)]

/-- A parenthesis that is left open before the last member hides a member. -/
theorem length_members_joinWith_space_lt (className : Text) (h : ∀ u ∈ t :: texts, IsMemberText u)
    (hstray : ∃ u ∈ (t :: texts).dropLast, HasStray u) :
    ((Member.segments (Text.joinWith [' '] (t :: texts))).filterMap (Member.ofLine? className)).length <
      (t :: texts).length := by
  have ht := h t List.mem_cons_self
  induction texts generalizing t with
  | nil => simp at hstray
  | cons u texts ih =>
    have hrest : ∀ v ∈ u :: texts, IsMemberText v := fun v hv => h v (List.mem_cons_of_mem t hv)
    rw [Text.joinWith_cons_cons]
    by_cases hfirst : HasStray t
    · -- the line is one segment, and it is no member
      rw [ht.segments_append_of_stray hfirst (isMemberRun_joinWith hrest)]
      simp [hfirst.ofLine?_append_eq_none]
    · obtain ⟨v, hv, hstray⟩ := hstray
      rw [List.dropLast_cons_cons] at hv
      have hv : v ∈ (u :: texts).dropLast := by
        rcases List.mem_cons.mp hv with rfl | hv
        · exact absurd hstray hfirst
        · exact hv
      obtain ⟨m, hm⟩ := ht.exists_ofLine? className
      have hlt := ih hrest ⟨v, hv, hstray⟩ (hrest u List.mem_cons_self)
      rw [ht.segments_append_space hfirst (isMemberRun_joinWith hrest), List.filterMap_cons, hm]
      simpa using hlt

end Lines

/-- Members that begin with a symbol are read alike on one line and on lines of their own exactly if no
method before the last member has an opening parenthesis among its parameters. -/
theorem one_line_reads_as_lines_iff (className : Text) (texts : List Text) (h : ∀ t ∈ texts, IsMemberText t) :
    BodyMembers.ofBody className (Text.joinWith [' '] texts) =
        BodyMembers.ofBody className (Text.joinWith ['\n'] texts) ↔
      ∀ t ∈ texts.dropLast, ∀ f : MethodForm, f.text = t → '(' ∉ f.parameters := by
  cases texts with
  | nil => exact iff_of_true rfl (by simp)
  | cons t texts =>
    have hlines := bodySegments_joinWith_newline h
    have hline : Member.bodySegments (Text.joinWith [' '] (t :: texts)) =
        Member.segments (Text.joinWith [' '] (t :: texts)) := by
      rw [Member.bodySegments, (isMemberRun_joinWith h).bodyLines, List.flatMap_singleton]
    rw [BodyMembers.ofBody_eq_ofList, BodyMembers.ofBody_eq_ofList, hlines, hline]
    constructor
    · intro heq u hu f hf hopen
      -- every text is a member, so on lines of their own there are more members
      have hlt := length_members_joinWith_space_lt className h ⟨u, hu, f, hf, hopen⟩
      have hall : ((t :: texts).filterMap (Member.ofLine? className)).length = (t :: texts).length := by
        refine List.filterMap_length_eq_length.mpr fun v hv => ?_
        obtain ⟨m, hm⟩ := (h v hv).exists_ofLine? className
        simp [hm]
      rw [← BodyMembers.length_ofList, heq, BodyMembers.length_ofList, hall] at hlt
      omega
    · intro hopen
      rw [segments_joinWith_space h]
      rintro u hu ⟨f, hf, hm⟩
      exact hopen u hu f hf hm

/-- A method with a stray parenthesis hides the attribute behind it, and nothing before it. -/
theorem one_line_reads_as_lines_iff_stray :
    let stray := "+int f((x)".toList
    let plain := "-int y".toList
    (IsMemberText stray ∧ IsMemberText plain) ∧
    BodyMembers.ofBody "A".toList (Text.joinWith [' '] [stray, plain]) ≠
      BodyMembers.ofBody "A".toList (Text.joinWith ['\n'] [stray, plain]) ∧
    BodyMembers.ofBody "A".toList (Text.joinWith [' '] [plain, stray]) =
      BodyMembers.ofBody "A".toList (Text.joinWith ['\n'] [plain, stray]) := by
  intro stray plain
  let method : MethodForm :=
    { start := ⟨some '+', [], by simp [Visibility.symbols], by simp⟩
      type := some ("int".toList, [' '])
      name := ['f']
      parameters := "(x".toList
      isWord_type := by simp; decide
      isGap_type := by simpa using isGap_space
      isWord_name := by decide
      close_not_mem := by decide }
  let field : AttributeForm :=
    ⟨⟨some '-', [], by simp [Visibility.symbols], by simp⟩, "int".toList, [' '], ['y'], by decide, isGap_space, by decide⟩
  have hstray : IsMemberText stray := ⟨⟨'+', _, by decide, rfl⟩, Or.inl ⟨method, rfl⟩, by decide⟩
  have hplain : IsMemberText plain := ⟨⟨'-', _, by decide, rfl⟩, Or.inr ⟨field, rfl⟩, by decide⟩
  have hhidden := one_line_reads_as_lines_iff "A".toList [stray, plain] (by simp [hstray, hplain])
  have hread := one_line_reads_as_lines_iff "A".toList [plain, stray] (by simp [hstray, hplain])
  refine ⟨⟨hstray, hplain⟩, fun he => hhidden.mp he stray (by simp) method rfl (by decide), hread.mpr ?_⟩
  intro t ht f hf
  obtain rfl : t = plain := by simpa using ht
  have hopen : '(' ∈ plain := by
    rw [← hf, f.text_eq]
    simp
  exact absurd hopen (by decide)

end ClassNotation
