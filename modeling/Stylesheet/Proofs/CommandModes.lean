import Stylesheet.Command
import Stylesheet.Proofs.Transcript
import Stylesheet.Proofs.TreeRoundTrip

/-!
The ways to carry out a command agree. `check` renders to a sink that keeps nothing, `build` to
standard output, and `build` with an output to a file that is created before and removed where the
rendering fails. All of them tell the same of a sheet, and only the output is ever changed.

A folder is compared by what reading its paths gives. Putting or removing a file does not make or
unmake a folder, so every path leads where it led before.
-/

namespace Stylesheet

namespace Folder

theorem lookup?_erase (folder : Folder) (parts other : List String) :
    (folder.erase parts).lookup? other = if other = parts then none else folder.lookup? other := by
  unfold lookup? erase
  rw [List.find?_filter]
  split
  · next hother =>
      subst hother
      simp
  · next hother =>
      congr 2
      funext entry
      by_cases hentry : entry.1 = other
      · simp [hentry, hother]
      · simp [hentry]

theorem lookup?_cons (parts : List String) (e : Entry) (entries : List (List String × Entry))
    (other : List String) :
    lookup? ⟨(parts, e) :: entries⟩ other =
      if other = parts then some e else lookup? ⟨entries⟩ other := by
  unfold lookup?
  by_cases hother : other = parts
  · simp [hother]
  · have hkey : (parts == other) = false := by simpa using fun h => hother h.symm
    simp [hother, hkey]

/-- The folders differ at most in the file at one place, which is a folder in neither. -/
structure SameBut (parts : List String) (before after : Folder) : Prop where
  notBefore : before.isFolder (.inside parts) = false
  notAfter : after.isFolder (.inside parts) = false
  elsewhere : ∀ other, other ≠ parts → after.lookup? other = before.lookup? other

section SameBut

variable {parts : List String} {before middle after : Folder}

theorem SameBut.trans (h : SameBut parts before middle) (hnext : SameBut parts middle after) :
    SameBut parts before after where
  notBefore := h.notBefore
  notAfter := hnext.notAfter
  elsewhere := fun other hother =>
    (hnext.elsewhere other hother).trans (h.elsewhere other hother)

/-- The same places are folders in both. -/
theorem SameBut.isFolder_eq (h : SameBut parts before after) (place : Place) :
    after.isFolder place = before.isFolder place := by
  match place with
  | .outside => rfl
  | .inside [] => rfl
  | .inside (first :: rest) =>
      by_cases hparts : first :: rest = parts
      · rw [hparts, h.notBefore, h.notAfter]
      · rw [isFolder, isFolder, h.elsewhere _ hparts] <;> simp

/-- Where a path leads depends only on which places are folders. -/
theorem SameBut.locate_eq (h : SameBut parts before after) (path : String) :
    after.locate path = before.locate path := by
  have hfollow : after.follow = before.follow := by
    funext place part
    simp only [follow, h.isFolder_eq]
  rw [locate, locate, hfollow]

/-- A path that leads elsewhere reads as before. -/
theorem SameBut.read_elsewhere (h : SameBut parts before after) {path : String}
    (hpath : before.locate path ≠ some (.inside parts)) : after.read path = before.read path := by
  unfold read
  rw [h.locate_eq]
  cases hplace : before.locate path with
  | none => rfl
  | some place =>
      dsimp only
      rw [h.isFolder_eq]
      cases place with
      | outside => rfl
      | inside other =>
          have hother : other ≠ parts := by
            rintro rfl
            exact hpath hplace
          simp only [h.elsewhere other hother]

/-- A path that leads to the place reads what stands there now. -/
theorem SameBut.read_here (h : SameBut parts before after) {path : String}
    (hpath : before.locate path = some (.inside parts)) :
    after.read path = match after.lookup? parts with
      | some (.file content) => .bytes content
      | _ => .missing := by
  unfold read
  rw [h.locate_eq, hpath]
  dsimp only
  rw [h.notAfter]
  rfl

end SameBut

section Change

variable {folder : Folder} {path : String} {parts : List String}

/-- A file can be put where a path leads to no folder. -/
theorem write?_of_locate (hpath : folder.locate path = some (.inside parts))
    (hparts : folder.isFolder (.inside parts) = false) (content : ByteArray) :
    ∃ after, folder.write? path content = some after ∧ SameBut parts folder after ∧
      after.lookup? parts = some (.file content) := by
  refine ⟨⟨(parts, .file content) :: (folder.erase parts).entries⟩, ?_, ⟨hparts, ?_, ?_⟩, ?_⟩
  · simp [write?, hpath, hparts]
  · cases parts with
    | nil => cases hparts
    | cons first rest => simp [isFolder, lookup?_cons]
  · intro other hother
    rw [lookup?_cons, if_neg hother]
    exact (lookup?_erase folder parts other).trans (if_neg hother)
  · rw [lookup?_cons, if_pos rfl]

/-- Where a file was put, the path leads to no folder. -/
theorem exists_locate_of_write? {content : ByteArray} {after : Folder}
    (h : folder.write? path content = some after) :
    ∃ parts, folder.locate path = some (.inside parts) ∧
      folder.isFolder (.inside parts) = false := by
  unfold write? at h
  split at h
  · next parts hpath =>
      refine ⟨parts, hpath, ?_⟩
      cases hparts : folder.isFolder (.inside parts) with
      | false => rfl
      | true => simp [hparts] at h
  · cases h

/-- A file that is removed is gone, and nothing else is. -/
theorem remove_of_locate (hpath : folder.locate path = some (.inside parts))
    (hparts : folder.isFolder (.inside parts) = false) :
    SameBut parts folder (folder.remove path) ∧ (folder.remove path).lookup? parts = none := by
  have hremove : folder.remove path = folder.erase parts := by
    simp [remove, hpath, hparts]
  have hnone : (folder.erase parts).lookup? parts = none := by
    rw [lookup?_erase, if_pos rfl]
  rw [hremove]
  refine ⟨⟨hparts, ?_, fun other hother => ?_⟩, hnone⟩
  · cases parts with
    | nil => cases hparts
    | cons first rest => simp [isFolder, hnone]
  · rw [lookup?_erase, if_neg hother]

/-- A file that could be created can be given its content. -/
theorem write?_of_create {created : Folder} (hcreate : folder.write? path .empty = some created)
    (content : ByteArray) :
    ∃ parts after, folder.locate path = some (.inside parts) ∧
      created.write? path content = some after ∧ SameBut parts folder after ∧
      after.lookup? parts = some (.file content) := by
  obtain ⟨parts, hpath, hparts⟩ := exists_locate_of_write? hcreate
  obtain ⟨empty, hempty, hfirst, -⟩ := write?_of_locate hpath hparts .empty
  obtain rfl : empty = created := Option.some.inj (hempty.symm.trans hcreate)
  obtain ⟨after, hafter, hsecond, hentry⟩ :=
    write?_of_locate ((hfirst.locate_eq path).trans hpath) hfirst.notAfter content
  exact ⟨parts, after, hpath, hafter, hfirst.trans hsecond, hentry⟩

theorem bind_of_eq {α β : Type} {act : StateM Folder α} {next : α → StateM Folder β} {a : α}
    {after : Folder} (h : act folder = (a, after)) : (act >>= next) folder = next a after := by
  change (match act folder with
    | (a, after) => next a after) = _
  rw [h]

theorem create_of_some {created : Folder} (h : folder.write? path .empty = some created) :
    (Files.create path : StateM Folder Bool) folder = (true, created) := by
  have hget : (get : StateM Folder Folder) folder = (folder, folder) := rfl
  refine (bind_of_eq hget).trans ?_
  rw [h]
  rfl

theorem create_of_none (h : folder.write? path .empty = none) :
    (Files.create path : StateM Folder Bool) folder = (false, folder) := by
  have hget : (get : StateM Folder Folder) folder = (folder, folder) := rfl
  refine (bind_of_eq hget).trans ?_
  rw [h]
  rfl

theorem write_of_some {content : ByteArray} {after : Folder}
    (h : folder.write? path content = some after) :
    (Files.write path content : StateM Folder Unit) folder = ((), after) := by
  change ((), (folder.write? path content).getD folder) = _
  rw [h]
  rfl

end Change

end Folder

/-- A sink that keeps nothing never fails. -/
theorem Discard.unfailing (sink : Discard) : Sink.Unfailing sink := by
  intro pieces
  refine ⟨sink, sink, ?_, rfl⟩
  induction pieces with
  | nil => rfl
  | cons piece rest ih => exact ih

namespace Command

/-- A command carried out in a folder: what it reports, and the folder as it is left. -/
def carryOut (command : Command) (allowance : Sheet → Nat) (folder : Folder) : Report × Folder :=
  (command.run allowance : StateM Folder Report) folder

variable {command : Command} {allowance : Sheet → Nat} {sheet : Sheet} {folder : Folder}

/-- Whether rendering succeeds, and how it fails, does not depend on what becomes of the CSS. -/
theorem result_discard (command : Command) (allowance : Sheet → Nat) (sheet : Sheet) :
    (command.render allowance sheet Discard.mk).1 =
      (command.render allowance sheet ({} : Buffer)).1 := by
  have hbuffer : Sink.Unfailing ({} : Buffer) := Buffer.unfailing rfl rfl
  exact (Sheet.result_of_unfailing (Discard.unfailing _)).trans
    (Sheet.result_of_unfailing hbuffer).symm

/-- What building a file comes to in a folder where the file can be created. -/
theorem buildFile_of_create {output : String} {created after : Folder}
    (hcreate : folder.write? output .empty = some created)
    (hwrite : created.write? output (command.render allowance sheet ({} : Buffer)).2.bytes =
      some after) :
    (command.buildFile allowance output sheet : StateM Folder Report) folder =
      match (command.render allowance sheet ({} : Buffer)).1 with
      | .ok () => ({ exit := 0, notice := some (.built output) }, after)
      | .error error =>
          ({ exit := 1, notice := some (.failed command.path error) }, after.remove output) := by
  unfold buildFile
  rw [Folder.bind_of_eq (Folder.create_of_some hcreate), if_pos rfl]
  cases hrender : command.render allowance sheet ({} : Buffer) with
  | mk result written =>
      rw [hrender] at hwrite
      dsimp only
      rw [Folder.bind_of_eq (Folder.write_of_some hwrite)]
      cases result with
      | ok _ => rfl
      | error error => rfl

/-- An output that cannot be created is told of, and nothing is changed. -/
theorem buildFile_of_no_create {output : String}
    (hcreate : folder.write? output .empty = none) :
    (command.buildFile allowance output sheet : StateM Folder Report) folder =
      ({ exit := 1, notice := some (.unwritable command.path) }, folder) := by
  unfold buildFile
  rw [Folder.bind_of_eq (Folder.create_of_none hcreate)]
  rfl

/-- The sheet is read first, and only a build with an output goes on to change the folder. -/
theorem carryOut_eq (command : Command) (allowance : Sheet → Nat) (folder : Folder) :
    command.carryOut allowance folder =
      match load command.path (folder.read command.path) with
      | .error notice => ({ exit := 1, notice := some notice }, folder)
      | .ok sheet =>
          match command.mode with
          | .build (some output) =>
              (command.buildFile allowance output sheet : StateM Folder Report) folder
          | .build none => (command.buildStdout allowance sheet, folder)
          | .check => (command.checkSheet allowance sheet, folder) := by
  have hread : (Files.read command.path : StateM Folder Source) folder =
      (folder.read command.path, folder) := rfl
  unfold carryOut run
  rw [Folder.bind_of_eq hread]
  cases load command.path (folder.read command.path) with
  | error notice => rfl
  | ok sheet =>
      cases command.mode with
      | check => rfl
      | build output => cases output <;> rfl

/-- The report tells of a rendering by its exit code, and of a failure by its message too. -/
structure Tells (path : String) (result : Except Error Unit) (report : Report) : Prop where
  exit : report.exit = 0 ↔ result = .ok ()
  message : ∀ error, result = .error error →
    report.stderr = "Translation error in " ++ path ++ ": " ++ error.message ++ "\n"

theorem tells_ok {path : String} {report : Report} (h : report.exit = 0) :
    Tells path (.ok ()) report :=
  ⟨by simp [h], by simp⟩

/-- A failed rendering is told of by the exit code and in the message. -/
theorem tells_error {path : String} {report : Report} {error : Error} (hexit : report.exit = 1)
    (hnotice : report.notice = some (.failed path error)) : Tells path (.error error) report where
  exit := by simp [hexit]
  message := by
    intro other hother
    cases hother
    simp [Report.stderr, hnotice, Notice.text, String.join, String.append_assoc]

/-- A check tells how the rendering would end and prints nothing. -/
theorem checkSheet_tells (command : Command) (allowance : Sheet → Nat) (sheet : Sheet) :
    Tells command.path (sheet.renderIn ⟨command.host, allowance sheet⟩ ({} : Buffer)).result
        (command.checkSheet allowance sheet) ∧
      (command.checkSheet allowance sheet).stdout = .empty := by
  have hresult := result_discard command allowance sheet
  change _ = (sheet.renderIn ⟨command.host, allowance sheet⟩ ({} : Buffer)).result at hresult
  rw [← hresult]
  unfold checkSheet
  cases command.render allowance sheet Discard.mk with
  | mk result sink =>
      cases result with
      | ok _ => exact ⟨tells_ok rfl, rfl⟩
      | error error => exact ⟨tells_error rfl rfl, rfl⟩

/-- A build without output tells the same and prints what was written, also before a failure. -/
theorem buildStdout_tells (command : Command) (allowance : Sheet → Nat) (sheet : Sheet) :
    let rendering := sheet.renderIn ⟨command.host, allowance sheet⟩ ({} : Buffer)
    Tells command.path rendering.result (command.buildStdout allowance sheet) ∧
      (command.buildStdout allowance sheet).stdout = rendering.page.sink.bytes := by
  unfold buildStdout render
  dsimp only
  cases (sheet.renderIn ⟨command.host, allowance sheet⟩ ({} : Buffer)).result with
  | ok _ => exact ⟨tells_ok rfl, rfl⟩
  | error error => exact ⟨tells_error rfl rfl, rfl⟩

/-- Where the output can be created, it ends up with the CSS or is gone, and nothing else is
changed. -/
theorem buildFile_tells (command : Command) (allowance : Sheet → Nat) (sheet : Sheet)
    {output : String} (hcreate : (folder.write? output .empty).isSome) :
    let rendering := sheet.renderIn ⟨command.host, allowance sheet⟩ ({} : Buffer)
    let built := (command.buildFile allowance output sheet : StateM Folder Report) folder
    Tells command.path rendering.result built.1 ∧
      built.1.stdout = .empty ∧
      (rendering.result = .ok () → built.2.read output = .bytes rendering.page.sink.bytes) ∧
      (rendering.result ≠ .ok () → built.2.read output = .missing) ∧
      ∀ other, folder.locate other ≠ folder.locate output →
        built.2.read other = folder.read other := by
  intro rendering built
  obtain ⟨created, hcreated⟩ := Option.isSome_iff_exists.mp hcreate
  obtain ⟨parts, after, hplace, hwrite, hsame, hentry⟩ :=
    Folder.write?_of_create hcreated rendering.page.sink.bytes
  have hbuilt : built = _ := buildFile_of_create hcreated hwrite
  have hresult : (command.render allowance sheet ({} : Buffer)).1 = rendering.result := rfl
  rw [hresult] at hbuilt
  rw [hbuilt]
  cases hrendered : rendering.result with
  | ok _ =>
      refine ⟨tells_ok rfl, rfl, fun _ => ?_, fun hfailed => absurd rfl hfailed, ?_⟩
      · rw [hsame.read_here hplace, hentry]
      · intro other hother
        exact hsame.read_elsewhere (hplace ▸ hother)
  | error error =>
      obtain ⟨hremove, hgone⟩ :=
        Folder.remove_of_locate ((hsame.locate_eq output).trans hplace) hsame.notAfter
      refine ⟨tells_error rfl rfl, rfl, by simp, fun _ => ?_, ?_⟩
      · rw [(hsame.trans hremove).read_here hplace, hgone]
      · intro other hother
        exact (hsame.trans hremove).read_elsewhere (hplace ▸ hother)

/-- The modes agree, however a command line asks for them and however deep calls are followed. For
every folder, every path and every host, `css` and `result` being the bytes and the result of
rendering for that host the sheet that the path loads: `check` exits with 0 exactly if the result is
a success, and prints no CSS; `build` does so too and prints the CSS, also the part before a
failure; and `build` with an output that can be created leaves it with the CSS, or removed where the
rendering fails. All tell of a failure in the same words, and nothing but the output is changed. A
path that does not load makes all modes tell the same and change nothing. -/
theorem modes_agree (folder : Folder) (path : String) (definitions : List (String × Value))
    (colorFunctions : Bool) (allowance : Sheet → Nat) :
    let carriedOut (mode : Mode) : Report × Folder :=
      carryOut ⟨mode, path, definitions, colorFunctions⟩ allowance folder
    (∀ arguments mode,
      Request.parse arguments = .ok (.run ⟨mode, path, definitions, colorFunctions⟩) →
      (executeWithin allowance arguments : StateM Folder Report) folder = carriedOut mode) ∧
    (∀ sheet, load path (folder.read path) = .ok sheet →
      let host := Definition.host definitions colorFunctions
      let rendering := sheet.renderIn ⟨host, allowance sheet⟩ ({} : Buffer)
      let css := rendering.page.sink.bytes
      let result := rendering.result
      (Tells path result (carriedOut .check).1 ∧ (carriedOut .check).1.stdout = .empty ∧
        (carriedOut .check).2 = folder) ∧
      (Tells path result (carriedOut (.build none)).1 ∧
        (carriedOut (.build none)).1.stdout = css ∧ (carriedOut (.build none)).2 = folder) ∧
      (∀ output,
        ((folder.write? output .empty).isSome →
          Tells path result (carriedOut (.build (some output))).1 ∧
          (carriedOut (.build (some output))).1.stdout = .empty ∧
          (result = .ok () → (carriedOut (.build (some output))).2.read output = .bytes css) ∧
          (result ≠ .ok () → (carriedOut (.build (some output))).2.read output = .missing)) ∧
        ∀ other, folder.locate other ≠ folder.locate output →
          (carriedOut (.build (some output))).2.read other = folder.read other)) ∧
    (∀ notice, load path (folder.read path) = .error notice →
      ∀ mode, carriedOut mode = ({ exit := 1, notice := some notice }, folder)) := by
  intro carriedOut
  refine ⟨?_, ?_, ?_⟩
  · intro arguments mode hasks
    unfold executeWithin
    rw [hasks]
    rfl
  · intro sheet hload host rendering css result
    have hcheck : carriedOut .check = _ := carryOut_eq _ allowance folder
    have hbuild : carriedOut (.build none) = _ := carryOut_eq _ allowance folder
    have hfile (output : String) : carriedOut (.build (some output)) = _ :=
      carryOut_eq _ allowance folder
    simp only [hload] at hcheck hbuild hfile
    refine ⟨?_, ?_, ?_⟩
    · obtain ⟨htells, hstdout⟩ :=
        checkSheet_tells ⟨.check, path, definitions, colorFunctions⟩ allowance sheet
      rw [hcheck]
      exact ⟨htells, hstdout, rfl⟩
    · obtain ⟨htells, hstdout⟩ :=
        buildStdout_tells ⟨.build none, path, definitions, colorFunctions⟩ allowance sheet
      rw [hbuild]
      exact ⟨htells, hstdout, rfl⟩
    · intro output
      rw [hfile]
      cases hcreate : folder.write? output .empty with
      | none =>
          rw [buildFile_of_no_create hcreate]
          exact ⟨by simp, fun _ _ => rfl⟩
      | some created =>
          obtain ⟨htells, hstdout, hcss, hgone, hothers⟩ := buildFile_tells
            ⟨.build (some output), path, definitions, colorFunctions⟩ allowance sheet
            (Option.isSome_of_eq_some hcreate)
          exact ⟨fun _ => ⟨htells, hstdout, hcss, hgone⟩, hothers⟩
  · intro notice hload mode
    have hmode : carriedOut mode = _ := carryOut_eq _ allowance folder
    simp only [hload] at hmode
    exact hmode

end Command

theorem Text.decode?_toUTF8 (s : String) : decode? s.toUTF8 = some s := by
  simp only [decode?, String.fromUTF8?, Option.dite_none_right_eq_some]
  exact ⟨s.isValidUTF8, rfl⟩

/-- The text of a sheet with a declaration outside of any rule, which cannot be rendered. -/
def strayText : String :=
  "\x7b\"children\":[\x7b\"type\":\"declaration\",\"property\":\"\",\"values\":[],\"line\":7\x7d]\x7d"

def straySheet : Sheet := ⟨[.declaration "" [] 7]⟩

/-- A folder with that text and with the output of an earlier run. -/
def folderWithStray : Folder :=
  ⟨[(["in.json"], .file strayText.toUTF8), (["out.css"], .file "a".toUTF8)]⟩

set_option maxRecDepth 100000 in
theorem json_strayText : Json.parse? strayText = some (straySheet.toJson Json.ofFloat) := by
  cbv

theorem parse?_strayText : Sheet.parse? strayText = some straySheet := by
  have hbounds : Sheet.withinBounds (straySheet.toJson Json.ofFloat) = true := by decide +kernel
  have hwritable : straySheet.isWritable := by decide
  rw [Sheet.parse?, json_strayText, Option.bind_eq_bind, Option.bind_some, if_pos hbounds]
  exact Sheet.ofJson?_toJson Json.exact_ofFloat hwritable

theorem load_folderWithStray :
    Command.load "in.json" (folderWithStray.read "in.json") = .ok straySheet := by
  have hplace : folderWithStray.locate "in.json" = some (.inside ["in.json"]) := by
    decide +kernel
  have hread : folderWithStray.read "in.json" = .bytes strayText.toUTF8 := by
    simp only [Folder.read, hplace]
    rfl
  rw [hread, Command.load, Text.decode?_toUTF8]
  dsimp only
  rw [parse?_strayText]

theorem modes_agree_on_stray :
    Command.load "in.json" (folderWithStray.read "in.json") = .ok straySheet ∧
      (folderWithStray.write? "out.css" .empty).isSome ∧
      Request.parse ["build", "in.json", "-o", "out.css"] =
        .ok (.run ⟨.build (some "out.css"), "in.json", [], true⟩) ∧
      let message := "Translation error in in.json: line 7: unexpected declaration\n"
      let checked :=
        Command.carryOut ⟨.check, "in.json", [], true⟩ Sheet.allowance folderWithStray
      let built := (execute ["build", "in.json", "-o", "out.css"] : StateM Folder Report)
        folderWithStray
      checked.1.exit ≠ 0 ∧ checked.1.stderr = message ∧
        built.1.exit ≠ 0 ∧ built.1.stderr = message ∧
        built.2.read "out.css" = .missing ∧
        built.2.read "in.json" = folderWithStray.read "in.json" := by
  have hcreate : (folderWithStray.write? "out.css" .empty).isSome := by decide +kernel
  have hasks : Request.parse ["build", "in.json", "-o", "out.css"] =
      .ok (.run ⟨.build (some "out.css"), "in.json", [], true⟩) := rfl
  have hplaces : folderWithStray.locate "in.json" ≠ folderWithStray.locate "out.css" := by
    decide +kernel
  have hfails :
      (straySheet.renderIn ⟨Definition.host [] true, straySheet.allowance⟩ ({} : Buffer)).result =
        .error (.unexpected .declaration 7) := rfl
  obtain ⟨hcommand, hloaded, -⟩ := Command.modes_agree folderWithStray "in.json" [] true
    Sheet.allowance
  obtain ⟨⟨hchecked, -⟩, -, hfile⟩ := hloaded straySheet load_folderWithStray
  obtain ⟨hbuilt, hothers⟩ := hfile "out.css"
  obtain ⟨htells, -, -, hgone⟩ := hbuilt hcreate
  refine ⟨load_folderWithStray, hcreate, hasks, ?_⟩
  intro message checked built
  have hrun : built = _ := hcommand _ _ hasks
  rw [hrun]
  rw [hfails] at hchecked htells hgone
  exact ⟨by simp [checked, hchecked.exit], hchecked.message _ rfl, by simp [htells.exit],
    htells.message _ rfl, hgone (by simp), hothers "in.json" hplaces⟩

end Stylesheet
