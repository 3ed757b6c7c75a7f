import GraphCalc.Command.Run
import GraphCalc.Proofs.Number.Numeral

/-! # What a run leaves behind

A command reports on the error channel until its last step, which prints the answer or writes the file
and cannot fail once it has begun to. So a run that fails has printed nothing on the output and has left
all files alone. Main notions and statements:

* `Printed.isComplaint`: a line that says why the program stops;
* `World.Grows`: what has been added between two worlds, and what has become of the files;
* `Work.Ensures`: what is true when a computation ends, and when it stops; `Work.Quiet`, `Work.Tidy`: it
  only reports, or it serves;
* `Quiet.bind`, `Quiet.serve`: steps that only report may stand before others;
* `Command.Leaves`, `tidy_perform`: what has become of the files when a command succeeds;
* `run_leaves_no_trace`: all of this for a list of arguments.
-/

namespace GraphCalc
set_option autoImplicit false

/-! ## Complaints -/

/-- Whether something printed is a line that says why the program stops. -/
def Printed.isComplaint : Printed → Bool
  | .markup text => Work.errorMark.toList.isPrefixOf text.toList
  | _ => false

theorem isComplaint_of_head {text : String} (h : text.toList.head? ≠ some '[') :
    (Printed.markup text).isComplaint = false := by
  -- the mark begins with a bracket, so a text with another first character has not got it
  have hmark : Work.errorMark.toList = '[' :: "red]Error:[/red]".toList := by
    simp [Work.errorMark, styledText]
  rw [Printed.isComplaint, hmark]
  cases htext : text.toList with
  | nil => rfl
  | cons c rest =>
    rw [htext] at h
    rw [List.isPrefixOf, beq_eq_false_iff_ne.mpr fun heq => h (congrArg some heq.symm), Bool.false_and]

theorem isComplaint_dim (text : String) :
    (Printed.markup (styledText "dim" text)).isComplaint = false := by
  simp [Printed.isComplaint, Work.errorMark, styledText, List.isPrefixOf]

theorem isComplaint_displayFloat (v : Float) :
    (Printed.markup (displayFloat v)).isComplaint = false :=
  isComplaint_of_head fun hhead => bracket_not_mem_displayFloat v (List.mem_of_head? hhead)

/-! ## Files -/

namespace Files

theorem lookup_replace (entries : List (List String × ByteArray)) (place other : List String)
    (contents : ByteArray) :
    (entries.map fun entry => if entry.1 = place then (place, contents) else entry).lookup other =
      if other = place then (entries.lookup other).map fun _ => contents
      else entries.lookup other := by
  induction entries with
  | nil => simp
  | cons entry entries ih =>
    obtain ⟨name, old⟩ := entry
    have hbeq {name : List String} (h : ¬other = name) : (other == name) = false :=
      beq_eq_false_iff_ne.mpr h
    by_cases hname : name = place
    · by_cases hother : other = place
      · simp [hname, hother]
      · simp [List.lookup_cons, hname, hother, hbeq hother, ih]
    · by_cases hother : other = name
      · simp [hname, hother]
      · simp [List.lookup_cons, hname, hbeq hother, ih]

/-- Only the place that is written changes. -/
theorem find?_put (files : Files) (place other : List String) (contents : ByteArray) :
    (files.put place contents).find? other =
      if other = place then some contents else files.find? other := by
  unfold put
  split
  · next hfile =>
    obtain ⟨old, hold⟩ := Option.isSome_iff_exists.mp hfile
    rw [find?, lookup_replace]
    split
    · next hother =>
      subst hother
      rw [show files.entries.lookup other = some old from hold]
      rfl
    · rfl
  · next hfile =>
    have hnone : files.entries.lookup place = none := Option.not_isSome_iff_eq_none.mp hfile
    rw [find?, List.lookup_append]
    split
    · next hother =>
      subst hother
      simp [hnone]
    · next hother => simp [List.lookup_cons, beq_eq_false_iff_ne.mpr hother, find?]

theorem find?_write? {files after : Files} {path : String} {contents : ByteArray}
    (h : files.write? path contents = some after) :
    ∃ place, place? (fun place => !files.isFile place) path = some place ∧
      ∀ other, after.find? other = if other = place then some contents else files.find? other := by
  unfold write? at h
  split at h
  · cases h
  · next place hplace =>
    split at h
    · cases h
    · obtain rfl := Option.some.inj h
      exact ⟨place, hplace, fun other => find?_put files place other contents⟩

end Files

/-! ## Changes of the world -/

namespace World

/-- What has become of the files between two worlds, and what is true of all that has been printed. -/
structure Grows (changed : Files → Files → Prop) (fine : Channel × Printed → Prop)
    (before after : World) : Prop where
  files : changed before.files after.files
  printed : ∃ added, after.printed = before.printed ++ added ∧ ∀ entry ∈ added, fine entry

/-- Only the error channel has been printed on. -/
abbrev Complains : World → World → Prop := Grows Eq fun entry => entry.1 = .errors

/-- Only the error channel has been printed on, without a complaint. -/
abbrev Reports : World → World → Prop :=
  Grows Eq fun entry => entry.1 = .errors ∧ entry.2.isComplaint = false

/-- Nothing has been printed that is a complaint. -/
abbrev Serves (changed : Files → Files → Prop) : World → World → Prop :=
  Grows changed fun entry => entry.2.isComplaint = false

variable {changed : Files → Files → Prop} {fine fine' : Channel × Printed → Prop} {u v w : World}

theorem Grows.refl (w : World) : Grows Eq fine w w := ⟨rfl, [], by simp, by simp⟩

theorem Grows.trans (h : Grows Eq fine' u v) (h' : Grows changed fine v w)
    (hfine : ∀ entry, fine' entry → fine entry) : Grows changed fine u w := by
  obtain ⟨hfiles, added, hprinted, hadded⟩ := h
  obtain ⟨hfiles', added', hprinted', hadded'⟩ := h'
  refine ⟨hfiles ▸ hfiles', added ++ added', ?_, fun entry hentry => ?_⟩
  · rw [hprinted', hprinted, List.append_assoc]
  · rcases List.mem_append.mp hentry with hold | hnew
    · exact hfine entry (hadded entry hold)
    · exact hadded' entry hnew

theorem Reports.complains (h : u.Reports v) (h' : v.Complains w) : u.Complains w :=
  h.trans h' fun _ hentry => hentry.1

end World

/-! ## Computations -/

namespace Work
variable {α β : Type} {post : World → World → Prop} {work : Work α} {f : α → Work β}

/-- A computation that comes to an end leaves the world as described; one that stops has a code that is
not zero, and has printed on the error channel only. -/
def Ensures (post : World → World → Prop) (work : Work α) : Prop :=
  ∀ world, match work.run.run world with
    | (.ok _, after) => post world after
    | (.error exitCode, after) => exitCode ≠ 0 ∧ world.Complains after

theorem run_bind (work : Work α) (f : α → Work β) (world : World) :
    (work >>= f).run.run world = match work.run.run world with
      | (.ok a, after) => (f a).run.run after
      | (.error exitCode, after) => (.error exitCode, after) := by
  rw [ExceptT.run_bind, StateT.run_bind]
  rcases work.run.run world with ⟨_ | _, _⟩ <;> rfl

/-- Steps that only report may stand before a computation, if reports make no difference to what it
ensures. -/
theorem Ensures.bind (h : work.Ensures World.Reports) (hf : ∀ a, (f a).Ensures post)
    (habsorb : ∀ {u v w}, World.Reports u v → post v w → post u w) : (work >>= f).Ensures post := by
  intro world
  have hstart := h world
  rw [run_bind]
  cases hrun : work.run.run world with
  | mk result middle =>
    rw [hrun] at hstart
    cases result with
    | error exitCode => exact hstart
    | ok a =>
      -- what the first part has reported stays, also if the second part stops
      have hend := hf a middle
      dsimp only at hstart ⊢
      cases hrest : (f a).run.run middle with
      | mk result after =>
        rw [hrest] at hend
        cases result with
        | error exitCode => exact ⟨hend.1, World.Reports.complains hstart hend.2⟩
        | ok b => exact habsorb hstart hend

/-- It only reports, and leaves the files alone. -/
abbrev Quiet (work : Work α) : Prop := work.Ensures World.Reports

/-- It serves, and changes the files as described. -/
abbrev Tidy (changed : Files → Files → Prop) (work : Work α) : Prop :=
  work.Ensures (World.Serves changed)

variable {changed : Files → Files → Prop}

theorem Quiet.bind (h : work.Quiet) (hf : ∀ a, (f a).Quiet) : (work >>= f).Quiet :=
  Ensures.bind h hf fun huv hvw => huv.trans hvw fun _ => id

theorem Quiet.serve (h : work.Quiet) (hf : ∀ a, (f a).Tidy changed) : (work >>= f).Tidy changed :=
  Ensures.bind h hf fun huv hvw => huv.trans hvw fun _ => And.right

theorem quiet_pure (a : α) : (pure a : Work α).Quiet := World.Grows.refl

theorem ensures_abort : (abort : Work α).Ensures post := fun world =>
  ⟨Nat.one_ne_zero, World.Grows.refl world⟩

theorem ensures_fail (text : String) : (fail text : Work α).Ensures post := fun _ =>
  ⟨Nat.one_ne_zero, rfl, [_], rfl, by simp⟩

theorem quiet_contents (path : String) : (contents? path).Quiet := World.Grows.refl

theorem tidy_print {printed : Printed} (h : printed.isComplaint = false) :
    (print .output printed).Tidy Eq := fun _ => ⟨rfl, [_], rfl, by simp [h]⟩

theorem run_write (path : String) (contents : ByteArray) (world : World) :
    (write path contents).run.run world = match world.files.write? path contents with
      | some files => (.ok (), { world with files := files })
      | none => (.error 1, world) := by
  rw [write, run_bind]
  change ((match world.files.write? path contents with
      | some files => modify fun world => { world with files := files }
      | none => abort : Work Unit)).run.run world = _
  cases world.files.write? path contents <;> rfl

/-- Once a file is written, the line that says so cannot fail. -/
theorem tidy_write {path : String} {contents : ByteArray} {text : String}
    (hchanged : ∀ before after : Files, before.write? path contents = some after →
      changed before after)
    (htext : (Printed.markup text).isComplaint = false) :
    (do write path contents; remark text).Tidy changed := by
  intro world
  rw [run_bind, run_write]
  cases hwrite : world.files.write? path contents with
  | none => exact ⟨Nat.one_ne_zero, World.Grows.refl world⟩
  | some files => exact ⟨hchanged world.files files hwrite, [_], rfl, by simp [htext]⟩

end Work

/-! ## Sessions -/

namespace Session
open Work
variable (session : Session)

theorem quiet_note (text : String) : (session.note text).Quiet := by
  unfold note
  split
  · exact fun _ => ⟨rfl, [_], rfl, by simp [isComplaint_dim]⟩
  · exact quiet_pure ()

theorem quiet_sheet (path : String) : (session.sheet path).Quiet := by
  refine (quiet_contents path).bind fun contents => ?_
  split
  · exact ensures_fail _
  · exact (session.quiet_note _).bind fun _ => quiet_pure _

theorem quiet_scope (sheet : Option String) : (session.scope sheet).Quiet := by
  cases sheet with
  | none => exact quiet_pure _
  | some path => exact session.quiet_sheet path

theorem quiet_savedLines (sheet : Option String) : (session.savedLines sheet).Quiet := by
  cases sheet with
  | none => exact quiet_pure _
  | some path => exact (session.quiet_sheet path).bind fun _ => quiet_pure _

theorem quiet_worksheet (lines : List String) (sheet : Option String) :
    (session.worksheet lines sheet).Quiet := by
  refine (session.quiet_savedLines sheet).bind fun saved => ?_
  dsimp only
  split
  · exact ensures_fail _
  · exact quiet_pure _

end Session

/-! ## Commands -/

namespace Command
open Work
variable (session : Session)

theorem quiet_binding (raw : String) : (binding raw).Quiet := by
  unfold binding
  dsimp only
  split
  · exact ensures_fail _
  · split
    · exact ensures_fail _
    · split
      · exact quiet_pure _
      · exact ensures_fail _

theorem quiet_bindings (raw : List String) : (raw.mapM binding).Quiet := by
  induction raw with
  | nil => exact quiet_pure _
  | cons text raw ih =>
    rw [List.mapM_cons]
    exact (quiet_binding text).bind fun _ => ih.bind fun _ => quiet_pure _

theorem quiet_columns (xs : List Float) (lines : List Line) (w : Worksheet)
    (done : List (String × List Float)) : (columns session xs lines w done).Quiet := by
  induction lines generalizing w done with
  | nil => exact quiet_pure _
  | cons line lines ih =>
    unfold columns
    split
    · exact (session.quiet_note _).bind fun _ => ih _ _
    · exact ih _ _

theorem tidy_evalWork (expression : String) (raw : List String) (sheet : Option String) :
    (evalWork session expression raw sheet).Tidy Eq := by
  refine (quiet_bindings raw).serve fun entries => ?_
  refine (session.quiet_scope sheet).serve fun w => ?_
  refine (session.quiet_note _).serve fun _ => ?_
  split
  · exact tidy_print (isComplaint_displayFloat _)
  · exact ensures_abort
  · exact ensures_fail _

theorem tidy_tokensWork (expression : String) : (tokensWork expression).Tidy Eq := by
  unfold tokensWork
  split
  · exact tidy_print rfl
  · exact ensures_fail _

theorem tidy_treeWork (expression : String) : (treeWork expression).Tidy Eq := by
  unfold treeWork
  split
  · split
    · next e _ shown hshown =>
      unfold Display.tree? at hshown
      split at hshown
      · obtain rfl := Option.some.inj hshown
        exact tidy_print rfl
      · cases hshown
    · exact ensures_abort
  · exact ensures_fail _

theorem tidy_describeWork (lines : List String) (sheet : Option String) :
    (describeWork session lines sheet).Tidy Eq :=
  (session.quiet_worksheet lines sheet).serve fun _ => tidy_print rfl

theorem tidy_tableWork (lines : List String) (first last : Float) (steps : ℤ)
    (sheet : Option String) : (tableWork session lines first last steps sheet).Tidy Eq := by
  unfold tableWork
  split
  · exact ensures_fail _
  · refine (session.quiet_worksheet lines sheet).serve fun w => ?_
    split
    · exact ensures_abort
    · refine (quiet_columns session _ _ _ _).serve fun columns => ?_
      split
      · exact ensures_fail _
      · exact tidy_print rfl

theorem tidy_pointsWork (lines : List String) (left right bottom top : Float) (width : Option ℤ)
    (sheet : Option String) :
    (pointsWork session lines left right bottom top width sheet).Tidy Eq := by
  refine (session.quiet_worksheet lines sheet).serve fun w => ?_
  dsimp only
  split
  · exact ensures_fail _
  · split
    · exact ensures_abort
    · refine (session.quiet_note _).serve fun _ => tidy_print ?_
      unfold Display.points
      split
      · decide
      · rfl

theorem tidy_integralsWork (lines : List String) (sheet : Option String) :
    (integralsWork session lines sheet).Tidy Eq := by
  refine (session.quiet_worksheet lines sheet).serve fun w => ?_
  refine (session.quiet_note _).serve fun _ => tidy_print ?_
  unfold Display.integrals
  split
  · decide
  · rfl

/-- What becomes of the files when a command succeeds. The file at the path of a worksheet that is saved
holds the lines, and all others are as they were; every other command leaves all files alone. -/
def Leaves (settings : Settings) : Command → Files → Files → Prop
  | save path lines, before, after =>
    ∃ place, Files.place? (fun place => !before.isFile place) path = some place ∧
      ∀ other, after.find? other =
        if other = place then some (Worksheet.ofLines settings lines).write.toUTF8
        else before.find? other
  | _, before, after => before = after

theorem tidy_saveWork (path : String) (lines : List String) :
    (saveWork session path lines).Tidy (Leaves session.settings (.save path lines)) := by
  unfold saveWork
  dsimp only
  split
  · exact ensures_fail _
  · exact tidy_write (fun _ _ => Files.find?_write?) (isComplaint_of_head (by simp))

theorem tidy_perform (command : Command) :
    (command.perform session).Tidy (command.Leaves session.settings) := by
  cases command with
  | eval expression bindings sheet => exact tidy_evalWork session expression bindings sheet
  | tokens expression => exact tidy_tokensWork expression
  | tree expression => exact tidy_treeWork expression
  | describe lines sheet => exact tidy_describeWork session lines sheet
  | table lines first last steps sheet => exact tidy_tableWork session lines first last steps sheet
  | points lines left right bottom top width sheet =>
    exact tidy_pointsWork session lines left right bottom top width sheet
  | integrals lines sheet => exact tidy_integralsWork session lines sheet
  | save path lines => exact tidy_saveWork session path lines

end Command

/-! ## Runs -/

/-- A run that fails has printed on the error channel only, and all files are as they were. A run that
succeeds has not printed a complaint, and the files have changed as the command says. -/
theorem run_leaves_no_trace (s : Surroundings) (arguments : List String) :
    ((run s arguments).exitCode ≠ 0 →
      (∀ entry ∈ (run s arguments).printed, entry.1 = .errors) ∧
        (run s arguments).files = s.files) ∧
    ((run s arguments).exitCode = 0 →
      (∀ entry ∈ (run s arguments).printed, entry.2.isComplaint = false) ∧
        match Invocation.read arguments with
        | .ok invocation => invocation.command.Leaves s.settings s.files (run s arguments).files
        | .error _ => (run s arguments).files = s.files) := by
  unfold run
  cases Invocation.read arguments with
  | error refusal => cases refusal <;> simp
  | ok invocation =>
    have htidy := Command.tidy_perform ⟨s.settings, invocation.verbose⟩ invocation.command
      ⟨[], s.files⟩
    dsimp only
    unfold Work.outcome
    cases hrun : (invocation.command.perform ⟨s.settings, invocation.verbose⟩).run.run
        ⟨[], s.files⟩ with
    | mk result after =>
      rw [hrun] at htidy
      cases result with
      | error exitCode =>
        obtain ⟨hcode, hfiles, added, hprinted, hadded⟩ := htidy
        obtain rfl : after.printed = added := hprinted
        exact ⟨fun _ => ⟨hadded, hfiles.symm⟩, fun hzero => absurd hzero hcode⟩
      | ok _ =>
        obtain ⟨hfiles, added, hprinted, hadded⟩ := htidy
        obtain rfl : after.printed = added := hprinted
        exact ⟨fun hnonzero => absurd rfl hnonzero, fun _ => ⟨hadded, hfiles⟩⟩

/-- Where the program starts without variables and with one file, which is empty. -/
def oneFile : Surroundings := ⟨[], ⟨[(["old"], .empty)]⟩⟩

/-- The empty file is no worksheet, so a command that reads it fails. A worksheet that is saved beside it
leaves it as it is. -/
theorem reading_fails_and_saving_succeeds :
    (run oneFile ["describe", "--sheet", "old"]).exitCode = 1 ∧
    (run oneFile ["describe", "--sheet", "old"]).printed.length = 1 ∧
    (∀ entry ∈ (run oneFile ["describe", "--sheet", "old"]).printed, entry.1 = .errors) ∧
    (run oneFile ["describe", "--sheet", "old"]).files = oneFile.files ∧
    (run oneFile ["save", "sheet", "x"]).exitCode = 0 ∧
    (run oneFile ["save", "sheet", "x"]).files.find? ["sheet"] =
      some (Worksheet.ofLines oneFile.settings ["x"]).write.toUTF8 ∧
    (run oneFile ["save", "sheet", "x"]).files.find? ["old"] = some .empty := by
  have hcode : (run oneFile ["describe", "--sheet", "old"]).exitCode = 1 := by rfl
  obtain ⟨herrors, hfiles⟩ := (run_leaves_no_trace oneFile ["describe", "--sheet", "old"]).1
    (by rw [hcode]; exact Nat.one_ne_zero)
  have hzero : (run oneFile ["save", "sheet", "x"]).exitCode = 0 := by rfl
  have hread : Invocation.read ["save", "sheet", "x"] = .ok ⟨false, .save "sheet" ["x"]⟩ := by rfl
  have hleaves := ((run_leaves_no_trace oneFile ["save", "sheet", "x"]).2 hzero).2
  rw [hread] at hleaves
  obtain ⟨place, hplace, hfind⟩ := hleaves
  have hsheet : Files.place? (fun place => !oneFile.files.isFile place) "sheet" = some ["sheet"] := by
    rfl
  obtain rfl := Option.some.inj (hplace.symm.trans hsheet)
  exact ⟨hcode, rfl, herrors, hfiles, hzero, hfind ["sheet"], hfind ["old"]⟩

end GraphCalc
