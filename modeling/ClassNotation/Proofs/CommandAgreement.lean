import ClassNotation.CommandLine.Reply
import ClassNotation.Proofs.WordTokens
import ClassNotation.Proofs.DetectionAgreement
import ClassNotation.Proofs.FaithfulRendering
import ClassNotation.Proofs.PipelineResults

/-! The commands agree with the detector, with the reader and with each other. Without options, the
exit code of each comes from the scans of the document alone, and so does whether anything is printed. -/
namespace ClassNotation

theorem Declaration.java_ne_nil (layout : Layout) (d : Declaration) : d.java layout ≠ [] := by
  cases d with
  | ofClass c =>
    obtain ⟨x, t, he, -⟩ := c.java_front layout
    change c.java layout ≠ []
    simp [he]
  | ofEnum e =>
    obtain ⟨t, he⟩ := e.java_front layout
    change e.java layout ≠ []
    simp [he]

private theorem Text.joinWith_eq_nil_iff {separator : Text} {ts : List Text} (h : ∀ t ∈ ts, t ≠ []) :
    Text.joinWith separator ts = [] ↔ ts = [] := by
  cases ts with
  | nil => simp [Text.joinWith]
  | cons t ts =>
    obtain ⟨u, he⟩ := Text.exists_append_eq_joinWith separator t ts
    simp [← he, h t List.mem_cons_self]

private theorem joinWith_generate_eq_nil_iff {layout : Layout} {document : Text} (separator : Text) :
    Text.joinWith separator (generate layout document) = [] ↔ (Model.ofText document).isEmpty = true := by
  rw [Text.joinWith_eq_nil_iff]
  · simp [generate, Model.java, Model.declarations, Model.isEmpty]
  · intro t ht
    obtain ⟨d, -, rfl⟩ := List.mem_map.mp ht
    exact d.java_ne_nil layout

private theorem Palette.text_eq_nil_of_paint {p : Palette} {token : Token} (h : p.paint token = []) :
    token.text = [] := by
  unfold paint at h
  split at h
  · exact (List.append_eq_nil_iff.mp (List.append_eq_nil_iff.mp h).1).2
  · exact h

theorem colourize_eq_nil_iff {p : Palette} {t : Text} : colourize p t = [] ↔ t = [] := by
  constructor
  · intro h
    rw [colourize_eq_flatMap] at h
    have htext : (Token.ofText (Text.dropReturns t)).flatMap Token.text = [] := by
      rw [List.flatMap_eq_nil_iff]
      intro token hm
      exact Palette.text_eq_nil_of_paint (List.flatMap_eq_nil_iff.mp h token hm)
    rw [Token.flatMap_text_ofText] at htext
    exact Text.dropReturns_eq_nil_iff.mp htext
  · rintro rfl
    rfl

namespace GenerateOptions
variable {s : Surroundings} {o : GenerateOptions} {document : Text}

/-- What is delivered if nothing stands against it. -/
def rendered (s : Surroundings) (o : GenerateOptions) (document : Text) : Text :=
  if o.json then (Model.ofText document).json
  else if o.wantsColour s then
    colourize (palette s) (Text.joinWith ['\n', '\n'] (ClassNotation.generate o.layout document))
  else Text.joinWith ['\n', '\n'] (ClassNotation.generate o.layout document)

def outputRun (s : Surroundings) (o : GenerateOptions) (document : Text) : Run Text :=
  if o.json then do
    let m ← (Pipeline.standard o.layout).read document
    return m.json
  else do
    let declarations ← (Pipeline.standard o.layout).generate document
    Run.note (Log.event .info "Generated declarations"
      [("declarations", Text.ofNat declarations.length), ("config", o.layout.description)])
    let joined := Text.joinWith ['\n', '\n'] declarations
    return if o.wantsColour s then colourize (palette s) joined else joined

theorem render_eq : o.render s document = (do
    Run.ofExcept o.layout.check
    if o.skipDetection then o.outputRun s document
    else
      let _ ← (Pipeline.standard o.layout).detect document
      o.outputRun s document) := rfl

private theorem result_outputRun : (o.outputRun s document).result = .ok (o.rendered s document) := by
  unfold outputRun rendered
  cases o.json with
  | true => simp [Run.result_bind, Pipeline.result_read, Pipeline.standard, Except.bind]
  | false => simp [Run.result_bind, Pipeline.result_generate, Pipeline.standard, Except.bind]

theorem result_render (hcheck : o.layout.check = .ok ()) : (o.render s document).result =
    if o.skipDetection || Detector.classNotation.accepts document then .ok (o.rendered s document)
    else .error .undetected := by
  rw [render_eq, Run.result_bind, Run.result_ofExcept, hcheck]
  cases hskip : o.skipDetection with
  | true => simp [Except.bind, result_outputRun]
  | false =>
    cases haccepts : Detector.classNotation.accepts document <;>
      simp [Except.bind, Run.result_bind, Pipeline.result_detect_standard, haccepts, result_outputRun]

private theorem rendered_eq_nil_iff (hjson : o.json = false) :
    o.rendered s document = [] ↔ (Model.ofText document).isEmpty = true := by
  rw [← joinWith_generate_eq_nil_iff ['\n', '\n'], rendered, if_neg (by simp [hjson])]
  split
  · exact colourize_eq_nil_iff
  · rfl

private theorem output_deliver_eq_nil_iff {t : Text} (h : filePath? o.output = none) :
    (o.deliver t).output = [] ↔ t = [] := by
  unfold deliver
  rw [h]
  change (if t.isEmpty || t.getLast? == some '\n' then t else Text.line t) = [] ↔ _
  split
  · rfl
  · next hne =>
    have ht : t ≠ [] := fun he => hne (by simp [he])
    simp [Text.line, ht]

private theorem exitCode_deliver (o : GenerateOptions) (t : Text) : (o.deliver t).exitCode = 0 := by
  unfold deliver
  split <;> rfl

theorem reply_of_ok {v : Bool} {t : Text} (h : (o.render s document).result = .ok t) :
    (o.reply s v document).exitCode = 0 ∧ (o.reply s v document).output = (o.deliver t).output ∧
      (o.reply s v document).file = (o.deliver t).file := by
  simp only [reply, h, and_true]
  exact o.exitCode_deliver t

theorem reply_of_error {verbose : Bool} {e : Error} (h : (o.render s document).result = .error e) :
    o.reply s verbose document = .ofError [] (o.render s document).log e := by
  simp only [reply, h]

end GenerateOptions

section Replies
variable {s : Surroundings} {v : Bool} {document : Text} {path : Option Text}

private theorem generateReply_of_accepts (h : Detector.classNotation.accepts document = true) :
    (Command.reply s v (.generate { input := path }) document).exitCode = 0 ∧
    (Command.reply s v (.generate { input := path }) document).file = none ∧
    ((Command.reply s v (.generate { input := path }) document).output = [] ↔
      (Model.ofText document).isEmpty = true) := by
  have hresult : (GenerateOptions.render s { input := path } document).result =
      .ok (GenerateOptions.rendered s { input := path } document) := by
    rw [GenerateOptions.result_render rfl, h, Bool.or_true, if_pos rfl]
  obtain ⟨hexit, houtput, hfile⟩ := GenerateOptions.reply_of_ok (v := v) hresult
  refine ⟨hexit, hfile, ?_⟩
  change (GenerateOptions.reply s v { input := path } document).output = [] ↔ _
  rw [houtput, GenerateOptions.output_deliver_eq_nil_iff rfl, GenerateOptions.rendered_eq_nil_iff rfl]

private theorem generateReply_of_not_accepts (h : Detector.classNotation.accepts document = false) :
    (Command.reply s v (.generate { input := path }) document).exitCode = 1 ∧
    (Command.reply s v (.generate { input := path }) document).file = none := by
  have hresult : (GenerateOptions.render s { input := path } document).result = .error .undetected := by
    rw [GenerateOptions.result_render rfl, h]
    rfl
  change (GenerateOptions.reply s v { input := path } document).exitCode = 1 ∧
    (GenerateOptions.reply s v { input := path } document).file = none
  rw [GenerateOptions.reply_of_error hresult]
  exact ⟨rfl, rfl⟩

private theorem result_detection (document : Text) : (detection document).result =
    if Detector.classNotation.accepts document then .ok (notationName, Detector.classNotation.confidence document)
    else .error .undetected := by
  unfold detection
  rw [Run.result_bind, Pipeline.result_detect_standard]
  cases Detector.classNotation.accepts document <;> rfl

private theorem detectReply_ends (json : Bool) (document : Text) :
    ((detectReply json document).exitCode = 0 ↔ Detector.classNotation.accepts document = true) ∧
      (detectReply json document).file = none := by
  have hresult := result_detection document
  cases h : Detector.classNotation.accepts document <;> rw [h] at hresult <;> simp [detectReply, hresult, Reply.ofError]

private theorem validateReply_ends (document : Text) :
    ((validateReply document).exitCode = 0 ↔ (Model.ofText document).isEmpty = false) ∧
      (validateReply document).file = none := by
  have hresult : ((Pipeline.standard {}).read document).result = .ok (Model.ofText document) :=
    Pipeline.result_read _ document
  cases h : (Model.ofText document).isEmpty <;> simp [validateReply, hresult, h, Reply.ofError]

end Replies

theorem Text.decode?_encode (t : Text) : Text.decode? (Text.encode t) = some t := by
  have hvalid : (String.ofList t).toUTF8.IsValidUTF8 := (String.ofList t).isValidUTF8
  rw [Text.decode?, Text.encode, String.fromUTF8?, dif_pos hvalid, Option.map_some]
  exact congrArg some String.toList_ofList

def CommandName.word : CommandName → Text
  | generate => "generate".toList
  | detect => "detect".toList
  | validate => "validate".toList

theorem filePath?_eq_some_iff {choice : Option Text} {path : Text} :
    filePath? choice = some path ↔ choice = some path ∧ path ≠ ['-'] := by
  rw [filePath?, Option.filter_eq_some_iff, bne_iff_ne]

theorem filePath?_eq_none_iff {choice : Option Text} :
    filePath? choice = none ↔ choice = none ∨ choice = some ['-'] := by
  cases choice with
  | none => simp [filePath?]
  | some path => simp [filePath?, Option.filter_eq_none_iff]

namespace Invocation

/-- The bytes that a command is given: those of the file that it names. Without a file, or with a
hyphen in its place, they are those of standard input. -/
def content (disk : Disk) (input : ByteArray) : Option Text → Option ByteArray
  | none => some input
  | some path => if path = ['-'] then some input else disk.read? path

private theorem content_eq (disk : Disk) (input : ByteArray) (choice : Option Text) :
    content disk input choice = (filePath? choice).elim (some input) disk.read? := by
  cases hpath : filePath? choice with
  | some path =>
    obtain ⟨rfl, hne⟩ := filePath?_eq_some_iff.mp hpath
    exact if_neg hne
  | none =>
    rcases filePath?_eq_none_iff.mp hpath with rfl | rfl <;> rfl

/-- The words that call a command without options, but for the file that it reads. -/
def plainArguments (name : CommandName) (path : Option Text) : List Text :=
  name.word :: (path.map ("--input=".toList ++ ·)).toList

def plain (name : CommandName) (path : Option Text) : Invocation :=
  ofSettings name [] (path.map Setting.input).toList

private theorem ofArguments_plainArguments {path : Option Text} (h : path ≠ some []) (name : CommandName) :
    ofArguments (plainArguments name path) = .ok (plain name path) := by
  cases path with
  | none => cases name <;> rfl
  | some path =>
    cases path with
    | nil => exact absurd rfl h
    | cons c t => cases name <;> rfl

def finish (s : Surroundings) (i : Invocation) (r : Reply) (disk : Disk) : Outcome :=
  ⟨r.exitCode, r.output, r.errors, i.written s r.log, disk⟩

/-- A run reads, replies, and then writes the file that the reply asks for. -/
theorem run_eq (s : Surroundings) (disk : Disk) (input : ByteArray) (i : Invocation) :
    i.run s disk input =
      let r := i.reply s (content disk input i.command.input)
      match r.file with
      | none => i.finish s r disk
      | some (path, t) =>
        match disk.write path (Text.encode t) with
        | .ok disk => i.finish s r disk
        | .error failure => i.finish s (r.failWrite path failure) disk := by
  rw [run, content_eq]
  cases filePath? i.command.input <;> rfl

/-- What is read in UTF-8 is what the command replies to; the rest is said on standard error. -/
theorem reply_encode (s : Surroundings) (i : Invocation) (document : Text) :
    ∃ notes, i.reply s (some (Text.encode document)) = (i.command.reply s i.verbose document).after notes := by
  have hdocument : i.document (some (Text.encode document)) = .ok document := by
    unfold Invocation.document
    rw [Option.bind_some, Text.decode?_encode]
  unfold reply
  rw [hdocument]
  exact ⟨i.notes s ++ (if i.verbose then _ else _), by simp only [Reply.after, List.append_assoc]; rfl⟩

private theorem run_of_content {s : Surroundings} {disk : Disk} {input : ByteArray} (i : Invocation) {document : Text}
    (hcontent : content disk input i.command.input = some (Text.encode document))
    (hfile : (i.command.reply s i.verbose document).file = none) :
    (i.run s disk input).exitCode = (i.command.reply s i.verbose document).exitCode ∧
      (i.run s disk input).output = (i.command.reply s i.verbose document).output := by
  obtain ⟨notes, hreply⟩ := reply_encode s i document
  rw [run_eq, hcontent, hreply]
  simp only [Reply.after, hfile]
  exact ⟨rfl, rfl⟩

section PlainRuns
variable {s : Surroundings} {disk : Disk} {input : ByteArray} {path : Option Text} {document : Text}

private theorem plain_validate (path : Option Text) : plain .validate path = ⟨false, none, none, .validate path⟩ := by
  cases path <;> rfl

private theorem plain_detect (path : Option Text) : plain .detect path = ⟨false, none, none, .detect path false⟩ := by
  cases path <;> rfl

private theorem plain_generate (path : Option Text) :
    plain .generate path = ⟨false, none, none, .generate { input := path }⟩ := by
  cases path <;> rfl

private theorem run_validate (hcontent : content disk input path = some (Text.encode document)) :
    ((plain .validate path).run s disk input).exitCode = 0 ↔ (Model.ofText document).isEmpty = false := by
  obtain ⟨hexit, hfile⟩ := validateReply_ends document
  rw [plain_validate, (run_of_content ⟨_, _, _, .validate path⟩ hcontent hfile).1]
  exact hexit

private theorem run_detect (hcontent : content disk input path = some (Text.encode document)) :
    ((plain .detect path).run s disk input).exitCode = 0 ↔ Detector.classNotation.accepts document = true := by
  obtain ⟨hexit, hfile⟩ := detectReply_ends false document
  rw [plain_detect, (run_of_content ⟨_, _, _, .detect path false⟩ hcontent hfile).1]
  exact hexit

private theorem run_generate (hcontent : content disk input path = some (Text.encode document)) :
    (((plain .generate path).run s disk input).exitCode = 0 ↔ Detector.classNotation.accepts document = true) ∧
      (Detector.classNotation.accepts document = true →
        (((plain .generate path).run s disk input).output = [] ↔ (Model.ofText document).isEmpty = true)) := by
  rw [plain_generate]
  cases h : Detector.classNotation.accepts document with
  | true =>
    obtain ⟨hexit, hfile, houtput⟩ := generateReply_of_accepts h
    obtain ⟨hexitRun, houtputRun⟩ := run_of_content ⟨false, none, none, .generate { input := path }⟩ hcontent hfile
    rw [hexitRun, houtputRun]
    exact ⟨iff_of_true hexit rfl, fun _ => houtput⟩
  | false =>
    obtain ⟨hexit, hfile⟩ := generateReply_of_not_accepts h
    rw [(run_of_content ⟨_, _, _, .generate { input := path }⟩ hcontent hfile).1, hexit]
    simp

end PlainRuns
end Invocation

/-- Detector, reader, pipeline and commands agree on every document. The reader finds declarations
where the detector is surest, and whatever the detector accepts is rendered. A valid document is
detected, a document is rendered if it is detected, and to nothing if it is not valid. -/
theorem detector_reader_and_commands_agree (document : Text) :
    ((Model.ofText document).isEmpty = false ↔ Detector.classNotation.confidence document = ⟨8, by decide⟩) ∧
    (Detector.classNotation.accepts document = true ↔
      (Model.ofText document).isEmpty = false ∨ abstractMark.scan document ≠ []) ∧
    (Detector.classNotation.accepts document = true → maybeDeclares document = true) ∧
    (∀ layout, ((Pipeline.standard layout).process document).result =
      if Detector.classNotation.accepts document then .ok (generate layout document) else .error .undetected) ∧
    ∀ (s : Surroundings) (disk : Disk) (input : ByteArray) (path : Option Text),
      Invocation.content disk input path = some (Text.encode document) →
      let outcome := fun name => (Invocation.plain name path).run s disk input
      (path ≠ some [] → ∀ name,
        Invocation.ofArguments (Invocation.plainArguments name path) = .ok (Invocation.plain name path)) ∧
      ((outcome .validate).exitCode = 0 ↔ (Model.ofText document).isEmpty = false) ∧
      ((outcome .detect).exitCode = 0 ↔ Detector.classNotation.accepts document = true) ∧
      ((outcome .validate).exitCode = 0 → (outcome .detect).exitCode = 0) ∧
      ((outcome .detect).exitCode = 0 ↔ (outcome .generate).exitCode = 0) ∧
      ((outcome .generate).exitCode = 0 → ((outcome .generate).output = [] ↔ (outcome .validate).exitCode ≠ 0)) := by
  refine ⟨Detector.confidence_eq_iff.symm, Detector.accepts_iff, Detector.maybeDeclares_of_accepts,
    fun layout => Pipeline.result_process_standard layout document, fun s disk input path hcontent => ?_⟩
  have hvalidate := Invocation.run_validate (s := s) hcontent
  have hdetect := Invocation.run_detect (s := s) hcontent
  obtain ⟨hgenerate, hprints⟩ := Invocation.run_generate (s := s) hcontent
  refine ⟨Invocation.ofArguments_plainArguments, hvalidate, hdetect, fun hv => ?_, ?_, fun hg => ?_⟩
  · exact hdetect.mpr (Detector.accepts_iff.mpr (Or.inl (hvalidate.mp hv)))
  · exact hdetect.trans hgenerate.symm
  · rw [Ne, hvalidate, Bool.not_eq_false]
    exact hprints (hgenerate.mp hg)

/-- A mark alone is detected and rendered to nothing, but is not valid. -/
theorem detector_reader_and_commands_agree_on_lone_mark :
    let document := "abstract class Shape".toList
    let outcome := fun name => (Invocation.plain name none).run {} {} (Text.encode document)
    Detector.classNotation.accepts document = true ∧ maybeDeclares document = true ∧
      ((Pipeline.standard {}).process document).result = .ok [] ∧ (outcome .validate).exitCode ≠ 0 ∧
      (outcome .generate).exitCode = 0 ∧ (outcome .generate).output = [] := by
  intro document outcome
  obtain ⟨-, haccepts, hquick, hprocess, hcommands⟩ := detector_reader_and_commands_agree document
  obtain ⟨-, hvalidate, hdetect, -, hgenerate, hprints⟩ := hcommands {} {} (Text.encode document) none rfl
  have ha : Detector.classNotation.accepts document = true := haccepts.mpr (Or.inr (by decide))
  have hv : (outcome .validate).exitCode ≠ 0 := mt hvalidate.mp (by decide)
  have hg : (outcome .generate).exitCode = 0 := hgenerate.mp (hdetect.mpr ha)
  have hp := hprocess {}
  rw [ha, if_pos rfl] at hp
  exact ⟨ha, hquick ha, hp, hv, hg, (hprints hg).mpr hv⟩

end ClassNotation
