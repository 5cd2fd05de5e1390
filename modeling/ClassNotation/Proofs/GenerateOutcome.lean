import ClassNotation.Proofs.CommandAgreement
import ClassNotation.Proofs.WrittenFiles

/-! Rendering from the command line is all or nothing. Whatever stands against it is found before
anything is printed or written, and what is rendered goes to one place as a whole. No rendered text
ends in a newline, so on standard output there is always just one behind it. -/
namespace ClassNotation

namespace Text

private theorem getLast?_joinWith {separator t : Text} {ts : List Text} (hlast : ts.getLast? = some t) (ht : t ≠ []) :
    (joinWith separator ts).getLast? = t.getLast? := by
  fun_induction joinWith separator ts with
  | case1 => simp at hlast
  | case2 u =>
    cases hlast
    rfl
  | case3 u v ts ih =>
    rw [List.getLast?_cons_cons] at hlast
    obtain ⟨c, hc⟩ := Option.ne_none_iff_exists'.mp (mt List.getLast?_eq_none_iff.mp ht)
    rw [List.getLast?_append, ih hlast, hc, Option.some_or]

private theorem decode?_eq_some_iff {bytes : ByteArray} {t : Text} : decode? bytes = some t ↔ bytes = encode t := by
  constructor
  · intro h
    obtain ⟨string, hstring, rfl⟩ := Option.map_eq_some_iff.mp h
    unfold String.fromUTF8? at hstring
    split at hstring
    · cases hstring
      rw [encode, String.ofList_toList]
      rfl
    · cases hstring
  · rintro rfl
    exact decode?_encode t

end Text

/-! ### The end of a rendered text -/

private theorem ClassDecl.getLast?_java (layout : Layout) (c : ClassDecl) : (c.java layout).getLast? = some '\x7d' :=
  Text.getLast?_joinWith List.getLast?_concat (by simp)

private theorem EnumDecl.getLast?_java (layout : Layout) (e : EnumDecl) : (e.java layout).getLast? = some '\x7d' :=
  List.getLast?_concat

private theorem Declaration.getLast?_java (layout : Layout) (d : Declaration) :
    (d.java layout).getLast? = some '\x7d' := by
  cases d with
  | ofClass c => exact c.getLast?_java layout
  | ofEnum e => exact e.getLast?_java layout

private theorem getLast?_joinWith_generate (separator : Text) (layout : Layout) (document : Text) :
    Text.joinWith separator (generate layout document) = [] ∨
      (Text.joinWith separator (generate layout document)).getLast? = some '\x7d' := by
  unfold generate Model.java
  cases hlast : (Model.ofText document).declarations.getLast? with
  | none =>
    rw [List.getLast?_eq_none_iff.mp hlast]
    exact Or.inl rfl
  | some d =>
    refine Or.inr ((Text.getLast?_joinWith ?_ (d.java_ne_nil layout)).trans (d.getLast?_java layout))
    rw [List.getLast?_map, hlast, Option.map_some]

private theorem Json.getLast?_block (opening closing : Char) (depth : Nat) (items : List Text) :
    (Json.block opening closing depth items).getLast? = some closing := by
  unfold Json.block
  split
  · rfl
  · exact List.getLast?_concat

private theorem Model.getLast?_json (m : Model) : m.json.getLast? = some '\x7d' := by
  unfold Model.json Json.object
  exact Json.getLast?_block ..

private theorem Token.getLast?_ofText {t : Text} {c : Char} (ht : t.getLast? = some c) (hc : isWordChar c = false) :
    (Token.ofText t).getLast? = some (.mark c) := by
  induction t with
  | nil => simp at ht
  | cons d t ih =>
    cases t with
    | nil =>
      obtain rfl : d = c := Option.some.inj ht
      rw [ofText, if_neg (by simp [hc])]
      rfl
    | cons e t =>
      rw [List.getLast?_cons_cons] at ht
      specialize ih ht
      unfold ofText
      split
      · split
        · next w rest he =>
          rw [he] at ih
          cases rest with
          | nil => simp at ih
          | cons token rest => exact ih
        · rw [List.getLast?_cons, ih, Option.getD_some]
      · rw [List.getLast?_cons, ih, Option.getD_some]

private theorem getLast?_colourize {p : Palette} {t : Text} {c : Char} (ht : t.getLast? = some '\x7d')
    (hp : p.stop.getLast? = some c) : (colourize p t).getLast? = some c := by
  have hdrop : (Text.dropReturns t).getLast? = some '\x7d' := (Text.getLast?_dropReturns t).trans ht
  obtain ⟨tokens, htokens⟩ := List.getLast?_eq_some_iff.mp (Token.getLast?_ofText hdrop (by decide))
  have hpaint : p.paint (.mark '\x7d') = p.start .yellow ++ ['\x7d'] ++ p.stop := rfl
  rw [colourize_eq_flatMap, htokens, List.flatMap_append, List.flatMap_singleton, hpaint, List.getLast?_append,
    List.getLast?_append, hp, Option.some_or, Option.some_or]

namespace GenerateOptions
variable {s : Surroundings} {o : GenerateOptions} {document t : Text}

private theorem getLast?_stop_palette (s : Surroundings) : (palette s).stop.getLast? = some 'm' := by
  unfold palette
  split <;> rfl

private theorem getLast?_rendered_ne (s : Surroundings) (o : GenerateOptions) (document : Text) :
    (o.rendered s document).getLast? ≠ some '\n' := by
  unfold rendered
  split
  · simp [Model.getLast?_json]
  · rcases getLast?_joinWith_generate ['\n', '\n'] o.layout document with hnil | hlast
    · split <;> simp [hnil, colourize_eq_nil_iff.mpr]
    · split
      · simp [getLast?_colourize hlast (getLast?_stop_palette s)]
      · simp [hlast]

/-! ### What stands against a run, and what it leaves behind -/

private theorem result_render_eq_ok_iff : (o.render s document).result = .ok t ↔
    o.layout.indent ≤ 16 ∧ (o.skipDetection = true ∨ Detector.classNotation.accepts document = true) ∧
      t = o.rendered s document := by
  by_cases hindent : o.layout.indent ≤ 16
  · rw [result_render (if_pos hindent), ← Bool.or_eq_true]
    split
    · next hdetected => simp [hindent, hdetected, eq_comm]
    · next hdetected => simp [hdetected]
  · obtain ⟨e, hcheck⟩ : ∃ e, o.layout.check = .error e := ⟨_, if_neg hindent⟩
    rw [render_eq, Run.result_bind, Run.result_ofExcept, hcheck]
    simp [Except.bind, hindent]

/-- The text of a document where standard output is no terminal and no variable is against colours. -/
def text (o : GenerateOptions) (document : Text) : Text :=
  let joined := Text.joinWith ['\n', '\n'] (generate o.layout document)
  if o.json then (Model.ofText document).json
  else if o.colour = .always then colourize .standard joined
  else joined

private theorem rendered_eq_text (hterminal : s.terminal = false) (hcolour : s.noColour = none) :
    o.rendered s document = o.text document := by
  have hpalette : palette s = .standard := by rw [palette, hcolour]; rfl
  have hwants : o.wantsColour s = true ↔ o.colour = .always := by
    unfold wantsColour
    cases o.colour <;> simp [hterminal]
  simp only [rendered, text, hpalette, hwants]

private theorem deliver_of_filePath? {path : Text} (h : filePath? o.output = some path) :
    o.deliver t = { file := some (path, t) } := by
  rw [deliver, h]

private theorem deliver_of_getLast?_ne (h : filePath? o.output = none) (ht : t.getLast? ≠ some '\n') :
    o.deliver t = { output := if t = [] then [] else t ++ ['\n'] } := by
  rw [deliver, h]
  by_cases hnil : t = []
  · simp [hnil]
  · simp [hnil, ht, Text.line]

/-- Nothing stands against rendering this document: it is what is read, the indent is small enough,
the document is detected if that matters, and its text has somewhere to go. -/
structure Admits (o : GenerateOptions) (disk : Disk) (input : ByteArray) (document : Text) : Prop where
  content : Invocation.content disk input o.input = some (Text.encode document)
  indent : o.layout.indent ≤ 16
  detected : o.skipDetection = true ∨ Detector.classNotation.accepts document = true
  place : ∀ path, o.output = some path → path ≠ ['-'] → ∃ place, disk.locate path = .ok place

private theorem Admits.eq_of_content {disk : Disk} {input : ByteArray} {other : Text} (h : o.Admits disk input other)
    (hcontent : Invocation.content disk input o.input = some (Text.encode document)) : other = document := by
  have hbytes : Text.encode other = Text.encode document := Option.some.inj (h.content.symm.trans hcontent)
  have hdecode := Text.decode?_encode other
  rw [hbytes, Text.decode?_encode] at hdecode
  exact (Option.some.inj hdecode).symm

end GenerateOptions

namespace Outcome

structure Failed (r : Outcome) (disk : Disk) : Prop where
  exitCode : r.exitCode ≠ 0
  output : r.output = []
  disk : r.disk = disk

/-- Without a path, or with a hyphen in its place, a text was printed as lines of their own and the
disk is as it was. At any other path stands the text as it is, nothing was printed, and by all paths that
lead elsewhere the same is read as before. -/
structure Delivered (r : Outcome) (disk : Disk) (choice : Option Text) (t : Text) : Prop where
  printed : choice = none ∨ choice = some ['-'] → r.disk = disk ∧ r.output = if t = [] then [] else t ++ ['\n']
  filed : ∀ path, choice = some path → path ≠ ['-'] → r.output = [] ∧ r.disk.read? path = some (Text.encode t) ∧
    ∃ place, disk.locate path = .ok place ∧ disk.Wrote r.disk place (Text.encode t) ∧
      ∀ other, disk.locate other ≠ .ok place → r.disk.read? other = disk.read? other

section
variable {r : Outcome} {disk : Disk} {choice : Option Text} {t : Text}

private theorem delivered_of_output (hchoice : filePath? choice = none) (hdisk : r.disk = disk)
    (houtput : r.output = if t = [] then [] else t ++ ['\n']) : r.Delivered disk choice t := by
  refine ⟨fun _ => ⟨hdisk, houtput⟩, fun path hpath hne => ?_⟩
  rw [filePath?_eq_some_iff.mpr ⟨hpath, hne⟩] at hchoice
  cases hchoice

private theorem delivered_of_wrote {path : Text} {place : Place} (hchoice : filePath? choice = some path)
    (houtput : r.output = []) (hplace : disk.locate path = .ok place)
    (hwrote : disk.Wrote r.disk place (Text.encode t)) : r.Delivered disk choice t := by
  refine ⟨fun hstream => ?_, fun path' hpath' hne => ?_⟩
  · rw [filePath?_eq_none_iff.mpr hstream] at hchoice
    cases hchoice
  · obtain rfl : path = path' := Option.some.inj (hchoice.symm.trans (filePath?_eq_some_iff.mpr ⟨hpath', hne⟩))
    exact ⟨houtput, hwrote.read?_of_locate hplace, place, hplace, hwrote,
      fun other hother => hwrote.read?_of_locate_ne hother⟩

end

end Outcome

namespace Invocation
variable {s : Surroundings} {disk : Disk} {input : ByteArray} {i : Invocation} {o : GenerateOptions}
  {document t : Text}

private theorem reply_of_undecoded {bytes : Option ByteArray} (h : bytes.bind Text.decode? = none) :
    ∃ notes e, i.reply s bytes = (Reply.ofError [] [] e).after notes := by
  unfold reply Invocation.document
  rw [h]
  cases filePath? i.command.input with
  | none => exact ⟨_, _, rfl⟩
  | some path => exact ⟨_, _, rfl⟩

private theorem exists_reply_generate (hcommand : i.command = .generate o)
    (hcontent : content disk input i.command.input = some (Text.encode document)) : ∃ notes,
    i.reply s (content disk input i.command.input) = (o.reply s i.verbose document).after notes := by
  obtain ⟨notes, hreply⟩ := reply_encode s i document
  refine ⟨notes, ?_⟩
  rw [hcontent, hreply, hcommand]
  rfl

private theorem run_of_file_eq_none {r : Reply} (hreply : i.reply s (content disk input i.command.input) = r)
    (hfile : r.file = none) : i.run s disk input = i.finish s r disk := by
  rw [run_eq, hreply]
  simp only [hfile]

private theorem run_of_write {r : Reply} {disk' : Disk} {path : Text}
    (hreply : i.reply s (content disk input i.command.input) = r) (hfile : r.file = some (path, t))
    (hwrite : disk.write path (Text.encode t) = .ok disk') : i.run s disk input = i.finish s r disk' := by
  rw [run_eq, hreply]
  simp only [hfile, hwrite]

private theorem run_of_write_error {r : Reply} {failure : WriteFailure} {path : Text}
    (hreply : i.reply s (content disk input i.command.input) = r) (hfile : r.file = some (path, t))
    (hwrite : disk.write path (Text.encode t) = .error failure) :
    i.run s disk input = i.finish s (r.failWrite path failure) disk := by
  rw [run_eq, hreply]
  simp only [hfile, hwrite]

private theorem failed_of_ofError {notes notes' : Text} {log : Log} {e : Error}
    (h : i.reply s (content disk input i.command.input) = (Reply.ofError notes log e).after notes') :
    (i.run s disk input).Failed disk := by
  rw [run_of_file_eq_none h rfl]
  exact ⟨Nat.one_ne_zero, rfl, rfl⟩

/-- A rendered text is delivered, unless there is no place for its file. -/
theorem run_of_render (hcommand : i.command = .generate o)
    (hcontent : content disk input i.command.input = some (Text.encode document))
    (hrender : (o.render s document).result = .ok t) (ht : t.getLast? ≠ some '\n') :
    ((i.run s disk input).exitCode = 0 ∧ (i.run s disk input).Delivered disk o.output t) ∨
    ((i.run s disk input).Failed disk ∧
      ∃ path failure, o.output = some path ∧ path ≠ ['-'] ∧ disk.locate path = .error failure) := by
  obtain ⟨notes, hreply⟩ := exists_reply_generate (s := s) hcommand hcontent
  obtain ⟨hexit, houtput, hfile⟩ := GenerateOptions.reply_of_ok (v := i.verbose) hrender
  cases hpath : filePath? o.output with
  | none =>
    rw [GenerateOptions.deliver_of_getLast?_ne hpath ht] at houtput hfile
    left
    rw [run_of_file_eq_none hreply hfile]
    exact ⟨hexit, Outcome.delivered_of_output hpath rfl houtput⟩
  | some path =>
    rw [GenerateOptions.deliver_of_filePath? hpath] at houtput hfile
    cases hwrite : disk.write path (Text.encode t) with
    | ok disk' =>
      obtain ⟨place, hplace, hwrote⟩ := Disk.wrote_of_write hwrite
      left
      rw [run_of_write hreply hfile hwrite]
      exact ⟨hexit, Outcome.delivered_of_wrote hpath houtput hplace hwrote⟩
    | error failure =>
      right
      rw [run_of_write_error hreply hfile hwrite]
      obtain ⟨hchoice, hne⟩ := filePath?_eq_some_iff.mp hpath
      refine ⟨⟨Nat.one_ne_zero, houtput, rfl⟩, path, failure, hchoice, hne, ?_⟩
      exact Disk.locate_of_write_error hwrite

/-- A run either fails without a trace or delivers the text of a document that it admits. -/
theorem run_generate_cases (s : Surroundings) (disk : Disk) (input : ByteArray) (hcommand : i.command = .generate o) :
    ((i.run s disk input).Failed disk ∧ ∀ document, ¬ o.Admits disk input document) ∨
    ∃ document, o.Admits disk input document ∧ (i.run s disk input).exitCode = 0 ∧
      (i.run s disk input).Delivered disk o.output (o.rendered s document) := by
  have hinput : i.command.input = o.input := by rw [hcommand]; rfl
  cases hdecode : (content disk input i.command.input).bind Text.decode? with
  | none =>
    obtain ⟨notes, e, hreply⟩ := reply_of_undecoded hdecode
    refine Or.inl ⟨failed_of_ofError hreply, fun document h => ?_⟩
    rw [hinput, h.content, Option.bind_some, Text.decode?_encode] at hdecode
    cases hdecode
  | some document =>
    obtain ⟨bytes, hbytes, hdocument⟩ := Option.bind_eq_some_iff.mp hdecode
    rw [Text.decode?_eq_some_iff.mp hdocument] at hbytes
    have hcontent : content disk input o.input = some (Text.encode document) := hinput ▸ hbytes
    cases hresult : (o.render s document).result with
    | error e =>
      obtain ⟨notes, hreply⟩ := exists_reply_generate (s := s) hcommand hbytes
      rw [GenerateOptions.reply_of_error hresult] at hreply
      refine Or.inl ⟨failed_of_ofError hreply, fun other h => ?_⟩
      obtain rfl := h.eq_of_content hcontent
      have hok := (GenerateOptions.result_render_eq_ok_iff (s := s)).mpr ⟨h.indent, h.detected, rfl⟩
      rw [hresult] at hok
      cases hok
    | ok t =>
      obtain ⟨hindent, hdetected, rfl⟩ := GenerateOptions.result_render_eq_ok_iff.mp hresult
      rcases run_of_render hcommand hbytes hresult (o.getLast?_rendered_ne s document) with
        ⟨hexit, hdelivered⟩ | ⟨hfailed, path, failure, hchoice, hne, hplace⟩
      · refine Or.inr ⟨document, ⟨hcontent, hindent, hdetected, fun path hchoice hne => ?_⟩, hexit, hdelivered⟩
        obtain ⟨-, -, place, hplace, -⟩ := hdelivered.filed path hchoice hne
        exact ⟨place, hplace⟩
      · refine Or.inl ⟨hfailed, fun other h => ?_⟩
        obtain ⟨place, hok⟩ := h.place path hchoice hne
        rw [hplace] at hok
        cases hok

end Invocation

/-- Rendering succeeds just where nothing stands against it, and then delivers the whole text. Where
it does not succeed, nothing is printed and the disk is as it was. -/
theorem generate_is_all_or_nothing {s : Surroundings} (hterminal : s.terminal = false) (hcolour : s.noColour = none)
    {i : Invocation} {o : GenerateOptions} (hcommand : i.command = .generate o) (disk : Disk) (input : ByteArray) :
    let outcome := i.run s disk input
    (outcome.exitCode = 0 ↔ ∃ document, o.Admits disk input document) ∧
    (∀ document, o.Admits disk input document →
      outcome.Delivered disk o.output (o.text document)) ∧
    (outcome.exitCode ≠ 0 → outcome.output = [] ∧ outcome.disk = disk) := by
  intro outcome
  rcases i.run_generate_cases s disk input hcommand with
    ⟨hfailed, hnone⟩ | ⟨document, hadmits, hexit, hdelivered⟩
  · refine ⟨iff_of_false hfailed.exitCode fun ⟨document, h⟩ => hnone document h, ?_, ?_⟩
    · exact fun document h => absurd h (hnone document)
    · exact fun _ => ⟨hfailed.output, hfailed.disk⟩
  · refine ⟨iff_of_true hexit ⟨document, hadmits⟩, fun other h => ?_, fun h => absurd hexit h⟩
    obtain rfl := h.eq_of_content hadmits.content
    rwa [GenerateOptions.rendered_eq_text hterminal hcolour] at hdelivered

/-- A document is read from one file and rendered into another, which is new, or it is printed, if a
hyphen stands in the place of that file. With one blank more in the margin nothing happens. -/
theorem generate_is_all_or_nothing_on_files :
    let bytes := Text.encode "class A \x7b \x7d".toList
    let disk := Disk.ofWorkingFiles [(["a.txt".toList], bytes)]
    let java := "public class A \x7b\n\x7d".toList
    let run := fun output indent => Invocation.run {} disk ByteArray.empty
      ⟨false, none, none, .generate { input := some "a.txt".toList, output := some output, layout := ⟨indent⟩ }⟩
    let filed := run "A.java".toList 16
    let printed := run "-".toList 16
    let refused := run "A.java".toList 17
    (filed.exitCode = 0 ∧ filed.output = [] ∧ filed.disk.read? "./A.java".toList = some (Text.encode java) ∧
      filed.disk.read? "a.txt".toList = some bytes) ∧
    (printed.exitCode = 0 ∧ printed.output = java ++ ['\n'] ∧ printed.disk = disk) ∧
    refused.exitCode ≠ 0 ∧ refused.output = [] ∧ refused.disk = disk := by
  intro bytes disk java run filed printed refused
  let options (output : Text) (indent : Nat) : GenerateOptions :=
    { input := some "a.txt".toList, output := some output, layout := ⟨indent⟩ }
  have hrun (output : Text) (indent : Nat) := generate_is_all_or_nothing (s := {}) rfl rfl
    (i := ⟨false, none, none, .generate (options output indent)⟩) rfl disk ByteArray.empty
  refine ⟨?_, ?_, ?_⟩
  · obtain ⟨hexit, hdelivered, -⟩ := hrun "A.java".toList 16
    have hadmits : (options "A.java".toList 16).Admits disk ByteArray.empty "class A \x7b \x7d".toList := by
      refine ⟨rfl, Nat.le_refl 16, Or.inr (by decide), fun path hchoice _ => ?_⟩
      cases hchoice
      exact ⟨_, rfl⟩
    obtain ⟨houtput, -, place, hplace, hwrote, hother⟩ := (hdelivered _ hadmits).filed _ rfl (by decide)
    refine ⟨hexit.mpr ⟨_, hadmits⟩, houtput, hwrote.read?_of_locate hplace,
      (hother _ fun hsame => ?_).trans rfl⟩
    have htext : disk.locate "a.txt".toList = .ok (disk.home ++ ["a.txt".toList]) := rfl
    have hjava : disk.locate "A.java".toList = .ok (disk.home ++ ["A.java".toList]) := rfl
    have hplaces := Except.ok.inj (htext.symm.trans (hsame.trans (hplace.symm.trans hjava)))
    exact absurd hplaces (by decide)
  · obtain ⟨hexit, hdelivered, -⟩ := hrun "-".toList 16
    have hadmits : (options "-".toList 16).Admits disk ByteArray.empty "class A \x7b \x7d".toList := by
      refine ⟨rfl, Nat.le_refl 16, Or.inr (by decide), fun path hchoice hne => ?_⟩
      exact absurd (Option.some.inj hchoice).symm hne
    obtain ⟨hdisk, houtput⟩ := (hdelivered _ hadmits).printed (Or.inr rfl)
    exact ⟨hexit.mpr ⟨_, hadmits⟩, houtput, hdisk⟩
  · obtain ⟨hexit, -, hfailed⟩ := hrun "A.java".toList 17
    have hne : refused.exitCode ≠ 0 := mt hexit.mp fun ⟨_, h⟩ => absurd h.indent (by decide)
    exact ⟨hne, hfailed hne⟩

end ClassNotation
