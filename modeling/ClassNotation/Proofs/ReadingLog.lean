import ClassNotation.Pipeline
import ClassNotation.Proofs.MemberSegments
import ClassNotation.Proofs.RelationLinks

/-! The log of a reading accounts for the model and for what was left out of it: everything that was
found is reported once and in order, and each segment of a body is a member or reported as skipped. -/
namespace ClassNotation

def Step.event? : Step → Option Entry
  | .event e => some e
  | _ => none

namespace Log

def events (log : Log) : List Entry := log.filterMap Step.event?

private theorem events_append (log after : Log) : events (log ++ after) = events log ++ events after :=
  List.filterMap_append

private theorem events_flatMap {α : Type} (report : α → Log) (items : List α) :
    events (items.flatMap report) = items.flatMap fun item => events (report item) := by
  induction items with
  | nil => rfl
  | cons item items ih => rw [List.flatMap_cons, events_append, ih, List.flatMap_cons]

private theorem events_flatMap_of_single {α : Type} {report : α → Log} {entry : α → Entry}
    (h : ∀ item, events (report item) = [entry item]) (items : List α) :
    events (items.flatMap report) = items.map entry := by
  simp only [events_flatMap, h, List.map_eq_flatMap]

@[simp] theorem events_event (level : Level) (message : String) (fields : List (String × Text)) :
    events (event level message fields) = [⟨level, message, fields⟩] := rfl

private theorem events_within (span : Entry) (inside after : Log) :
    events (within span inside after) = events inside ++ events after := by
  change events ((.opened span :: inside) ++ (.left span :: after) ++ [.closed span]) = _
  rw [events_append, events_append]
  exact List.append_nil _

private theorem keep_trace (log : Log) : log.keep (some .trace) = log := by
  refine List.filter_eq_self.mpr fun step _ => ?_
  cases step.entry.level <;> rfl

end Log

def Relation.foundEntry (r : Relation) : Entry :=
  ⟨.trace, "Matched relationship", [("from", r.source), ("to", r.target), ("kind", r.arrow.label)]⟩

/-- The entry for relations that were turned into links: how many there are, and between how many names. -/
def linkedEntry (rs : List Relation) : Entry :=
  ⟨.debug, "Resolved relationships", [("relation_count", Text.ofNat rs.length),
    ("class_count", Text.ofNat (rs.flatMap Relation.ends).eraseDups.length)]⟩

def ClassDecl.foundEntry (c : ClassDecl) : Entry :=
  ⟨.trace, "Matched class header", [("name", c.name),
    ("parent", c.parent.elim "None".toList fun p => "Some(\"".toList ++ p ++ "\")".toList)]⟩

def ClassDecl.assembledEntry (c : ClassDecl) : Entry :=
  ⟨.debug, "Assembled class", [("class", c.name), ("attributes", Text.ofNat c.attributes.length),
    ("methods", Text.ofNat c.methods.length), ("is_abstract", Text.ofBool c.isAbstract)]⟩

def EnumDecl.foundEntry (e : EnumDecl) : Entry := ⟨.trace, "Matched enum header", [("name", e.name)]⟩

def Model.readEntry (m : Model) : Entry :=
  ⟨.info, "Parsing completed", [("classes", Text.ofNat m.classes.length), ("enums", Text.ofNat m.enums.length)]⟩

/-- The entry for a segment that is no member: it is the only one of its line, or one of several. -/
def skipEntry (className : Text) (alone : Bool) (segment : Text) : Entry :=
  if alone then ⟨.trace, "Skipping line", [("class", className), ("line", segment)]⟩
  else ⟨.trace, "Skipping segment", [("class", className), ("segment", segment)]⟩

def skipEntries (className body : Text) : List Entry :=
  (Member.bodyLines body).flatMap fun line =>
    ((Member.segments line).filter fun segment => (Member.ofLine? className segment).isNone).map
      (skipEntry className ((Member.segments line).length == 1))

namespace Finding

private theorem events_report_ofSegment (className : Text) (alone : Bool) (segments : List Text) :
    Log.events ((segments.map (ofSegment className alone)).flatMap (report className)) =
      (segments.filter fun segment => (Member.ofLine? className segment).isNone).map (skipEntry className alone) := by
  induction segments with
  | nil => rfl
  | cons segment segments ih =>
    rw [List.map_cons, List.flatMap_cons, Log.events_append, ih]
    cases hm : Member.ofLine? className segment with
    | some m => simp [ofSegment, hm, report, Log.events]
    | none => cases alone <;> simp [ofSegment, hm, report, skipEntry]

private theorem events_report_ofBody (className body : Text) :
    Log.events ((ofBody className body).flatMap (report className)) = skipEntries className body := by
  rw [ofBody_eq_flatMap, List.flatMap_assoc, Log.events_flatMap]
  simp only [events_report_ofSegment]
  rfl

/-- What was found is an attribute, a method, or reported. -/
theorem length_events_report (className : Text) (found : List Finding) :
    (Log.events (found.flatMap (report className))).length + ((attributes found).length + (methods found).length) =
      found.length := by
  induction found with
  | nil => rfl
  | cons f found ih =>
    have hone : (Log.events (report className f)).length + ((attributes [f]).length + (methods [f]).length) = 1 := by
      match f with
      | .member (.ofAttribute _) | .member (.ofMethod _) | .skippedLine _ | .skippedSegment _ => rfl
    have hattributes : attributes (f :: found) = attributes [f] ++ attributes found := List.filterMap_append (l := [f])
    have hmethods : methods (f :: found) = methods [f] ++ methods found := List.filterMap_append (l := [f])
    rw [List.flatMap_cons, Log.events_append, hattributes, hmethods]
    simp only [List.length_append, List.length_cons]
    omega

/-- Each segment of a body is an attribute, a method, or reported as skipped. -/
theorem length_skipEntries (className body : Text) :
    (skipEntries className body).length +
        ((attributes (ofBody className body)).length + (methods (ofBody className body)).length) =
      (Member.bodySegments body).length := by
  rw [← events_report_ofBody, length_events_report, length_ofBody]

end Finding

namespace Outline

private theorem length_links (o : Outline) : o.links.length = (o.relations.flatMap Relation.ends).eraseDups.length := by
  rw [← Links.names_ofRelations, Links.names, List.length_map]
  rfl

private theorem events_classReport (o : Outline) (h : ClassHeader) :
    Log.events (o.classReport h) = skipEntries h.name h.body ++ [(o.classDecl h).assembledEntry] := by
  rw [classReport, Log.events_append, Finding.events_report_ofBody]
  rfl

private theorem events_classHeaders (o : Outline) :
    Log.events (o.classes.flatMap ClassHeader.report) = o.model.classes.map ClassDecl.foundEntry := by
  have hheader (h : ClassHeader) : Log.events h.report = [(o.classDecl h).foundEntry] := by
    obtain ⟨name, parent, body⟩ := h
    cases parent <;> rfl
  rw [Log.events_flatMap_of_single hheader, model, List.map_map]
  rfl

private theorem events_enumHeaders (o : Outline) :
    Log.events (o.enums.flatMap EnumHeader.report) = o.model.enums.map EnumDecl.foundEntry := by
  have hheader (h : EnumHeader) : Log.events h.report = [EnumDecl.foundEntry ⟨h.name, h.body⟩] := rfl
  rw [Log.events_flatMap_of_single hheader, model, List.map_map]
  rfl

/-- The events of a report, part by part. -/
theorem events_report (o : Outline) : Log.events (o.report {}) =
    [⟨.trace, "Starting model assembly", []⟩] ++ o.relations.map Relation.foundEntry ++ [linkedEntry o.relations] ++
      o.model.classes.map ClassDecl.foundEntry ++
      o.classes.flatMap (fun h => skipEntries h.name h.body ++ [(o.classDecl h).assembledEntry]) ++
      o.model.enums.map EnumDecl.foundEntry ++ [o.model.readEntry] := by
  have hrelations : Log.events (o.relations.flatMap Relation.report) = o.relations.map Relation.foundEntry :=
    Log.events_flatMap_of_single (fun _ => rfl) o.relations
  have hclasses : Log.events (o.classes.flatMap o.classReport) =
      o.classes.flatMap fun h => skipEntries h.name h.body ++ [(o.classDecl h).assembledEntry] := by
    simp only [Log.events_flatMap, events_classReport]
  have hcounts : o.model.readEntry = ⟨.info, "Parsing completed",
      [("classes", Text.ofNat (0 + o.classes.length)), ("enums", Text.ofNat (0 + o.enums.length))]⟩ := by
    simp [Model.readEntry, model]
  simp only [report, Log.events_append, Log.events_within, Log.events_event, hrelations, events_classHeaders, hclasses,
    events_enumHeaders, hcounts, length_links, linkedEntry, List.append_assoc, List.length_nil]

end Outline

/-- Reading a document reports, with every level enabled: the start; each relation; how many relations
there are and between how many names; each class header; class by class what was skipped of its body,
and then the class as it stands in the model; each enum header; and how many classes and enums there
are. Nothing else is reported, and what was skipped and what became a member are together all segments
of the body. -/
theorem log_accounts_for_model (document : Text) :
    let o := Outline.ofText document
    let m := Model.ofText document
    (Model.readRun document).result = .ok m ∧ m.classes = o.classes.map o.classDecl ∧
    ((Model.readRun document).log.keep (some .trace)).events =
      [⟨.trace, "Starting model assembly", []⟩] ++ o.relations.map Relation.foundEntry ++ [linkedEntry o.relations] ++
        m.classes.map ClassDecl.foundEntry ++
        o.classes.flatMap (fun h => skipEntries h.name h.body ++ [(o.classDecl h).assembledEntry]) ++
        m.enums.map EnumDecl.foundEntry ++ [m.readEntry] ∧
    ∀ h : ClassHeader,
      let found := Finding.ofBody h.name h.body
      (o.classDecl h).attributes = Finding.attributes found ++ (o.links.of h.name).map Link.toAttribute ∧
      (o.classDecl h).methods = Finding.methods found ∧
      (skipEntries h.name h.body).length + ((Finding.attributes found).length + (Finding.methods found).length) =
        (Member.bodySegments h.body).length := by
  intro o m
  refine ⟨rfl, rfl, ?_, fun h => ⟨rfl, rfl, Finding.length_skipEntries h.name h.body⟩⟩
  have hlog : (Model.readRun document).log = Model.readLog {} document := rfl
  rw [Log.keep_trace, hlog, Model.readLog, Log.events_within, Outline.events_report]
  exact List.append_nil _

end ClassNotation
