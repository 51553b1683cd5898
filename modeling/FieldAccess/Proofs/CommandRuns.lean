import FieldAccess.CommandLine.Command
import FieldAccess.CommandLine.FileTree
import FieldAccess.Proofs.Faults
import FieldAccess.Proofs.SourceTexts

/-! Commands on a tree in memory. Both commands load the same program; one lists what it sees, the
other runs over it, writes sources and then says what was wrong. -/
namespace FieldAccess

namespace Program

theorem populateAll_append (p : Program) (cs ds : List ClassDef) :
    (p.populateAll (cs ++ ds)).1 = ((p.populateAll cs).1.populateAll ds).1 := by
  induction cs generalizing p with
  | nil => rfl
  | cons c cs ih => exact ih (p.populate c).1

theorem length_populateAll (p : Program) (cs : List ClassDef) :
    (p.populateAll cs).2.length = cs.length := by
  induction cs generalizing p with
  | nil => rfl
  | cons c cs ih => exact congrArg (· + 1) (ih (p.populate c).1)

end Program

theorem Batch.mem_candidates_of_treated (p : Program) {id : NodeId}
    (h : id ∈ (Batch.run true p).report.injected ++ (Batch.run true p).report.alreadyPresent) :
    id ∈ Batch.candidates p := by
  refine (Batch.run_isolates p).places.subset ?_
  exact List.mem_append_left _ (List.mem_append_left _ h)

/-- A class that a run treats is one of the file. -/
theorem ClassFile.placed_of_treated (f : ClassFile) {id : NodeId}
    (h : id ∈ (Batch.run true f.toProgram).report.injected ++
      (Batch.run true f.toProgram).report.alreadyPresent) :
    ∃ c decl, (id, c) ∈ f.placed ∧ (Batch.run true f.toProgram).program.class? id = some decl ∧
      decl.name = c.name := by
  obtain ⟨d, hd⟩ := Batch.class?_of_mem_candidates (Batch.mem_candidates_of_treated _ h)
  obtain ⟨c, hc⟩ := ClassFile.exists_placed hd
  obtain ⟨ids, hafter, _⟩ := (Batch.hosting_run f.toProgram).class_ id d hd
  rw [(ClassFile.places hc).decl, Option.some.injEq] at hd
  exact ⟨c, _, hc, hafter, by rw [← hd]; rfl⟩

/-- Every class that a run treats can be written. -/
theorem ClassFile.succeeds_of_treated (f : ClassFile) (options : Java.Options) {id : NodeId}
    (h : id ∈ (Batch.run true f.toProgram).report.injected ++
      (Batch.run true f.toProgram).report.alreadyPresent) :
    ∃ decl, (Batch.run true f.toProgram).program.class? id = some decl ∧
      Succeeds (Java.emitClass (Batch.run true f.toProgram).program options id) := by
  obtain ⟨_, decl, _, hafter, _⟩ := f.placed_of_treated h
  exact ⟨decl, hafter, f.succeeds_emitClass true hafter options⟩

namespace CommandLine

variable {readers : Readers}

/-! ### Steps -/

/-- What a step comes to: a value or why it stops, and the session afterwards. -/
def outcome {α : Type} (x : ExceptT Failure (StateM Session) α) (s : Session) :
    Except Failure α × Session :=
  x.run.run s

/-- The session with more text printed. -/
def Session.put (s : Session) (text : String) : Session := { s with output := s.output ++ text }

def Session.putError (s : Session) (text : String) : Session :=
  { s with errors := s.errors ++ text }

/-- Lines as one text. -/
def unlines : List String → String
  | [] => ""
  | line :: rest => line ++ "\n" ++ unlines rest

section Steps

variable {α β : Type} {s t : Session}

theorem outcome_bind (x : ExceptT Failure (StateM Session) α)
    (f : α → ExceptT Failure (StateM Session) β) (s : Session) :
    outcome (x >>= f) s =
      match outcome x s with
      | (.ok a, t) => outcome (f a) t
      | (.error e, t) => (.error e, t) := by
  simp only [outcome, ExceptT.run_bind, StateT.run_bind]
  cases h : StateT.run x.run s with
  | mk r t => cases r <;> rfl

theorem outcome_bind_ok {x : ExceptT Failure (StateM Session) α} {a : α}
    (h : outcome x s = (.ok a, t)) (f : α → ExceptT Failure (StateM Session) β) :
    outcome (x >>= f) s = outcome (f a) t := by
  rw [outcome_bind, h]

theorem outcome_bind_error {x : ExceptT Failure (StateM Session) α} {e : Failure}
    (h : outcome x s = (.error e, t)) (f : α → ExceptT Failure (StateM Session) β) :
    outcome (x >>= f) s = (.error e, t) := by
  rw [outcome_bind, h]

theorem outcome_say (text : String) (s : Session) :
    outcome (say text) s = (.ok (), s.put (text ++ "\n")) :=
  rfl

theorem put_put (s : Session) (a b : String) : (s.put a).put b = s.put (a ++ b) := by
  simp [Session.put, String.append_assoc]

theorem putError_putError (s : Session) (a b : String) :
    (s.putError a).putError b = s.putError (a ++ b) := by
  simp [Session.putError, String.append_assoc]

theorem put_empty (s : Session) : s.put "" = s := by
  simp [Session.put]

theorem putError_empty (s : Session) : s.putError "" = s := by
  simp [Session.putError]

end Steps

theorem outcome_sayAll (lines : List String) (s : Session) :
    outcome (sayAll lines) s = (.ok (), s.put (unlines lines)) := by
  induction lines generalizing s with
  | nil => exact congrArg (Prod.mk _) (put_empty s).symm
  | cons line rest ih =>
    rw [sayAll, outcome_bind_ok (outcome_say line s), ih, put_put]
    rfl

theorem outcome_complainAll (lines : List String) (s : Session) :
    outcome (complainAll lines) s = (.ok (), s.putError (unlines lines)) := by
  induction lines generalizing s with
  | nil => exact congrArg (Prod.mk _) (putError_empty s).symm
  | cons line rest ih =>
    have hfirst : outcome (liftM (Host.printError (m := StateM Session) (line ++ "\n"))) s =
        (.ok (), s.putError (line ++ "\n")) := rfl
    rw [complainAll, outcome_bind_ok hfirst, ih, putError_putError]
    rfl

/-- How a command ends that has counted faults. -/
def verdict (failure : Nat → Failure) (count : Nat) : Except Failure Unit :=
  if count = 0 then .ok () else .error (failure count)

theorem outcome_verdict (failure : Nat → Failure) (count : Nat) (s : Session) :
    outcome (if count ≠ 0 then throw (failure count) else pure ()) s =
      (verdict failure count, s) := by
  by_cases h : count = 0
  · rw [if_neg (not_not.mpr h), verdict, if_pos h]
    rfl
  · rw [if_pos h, verdict, if_neg h]
    rfl

/-! ### Loading -/

/-- The files are there, and this is what they hold. -/
def Session.Loads (s : Session) (readers : Readers) (paths : List String)
    (files : List ClassFile) : Prop :=
  List.Forall₂ (fun path file =>
    ∃ text, s.tree.read? path = some text ∧ readers.classFile text = .ok file) paths files

/-- All classes of some files. -/
def merged (files : List ClassFile) : ClassFile where
  classes := files.flatMap ClassFile.classes

/-- What is said while files are loaded. -/
def loadLines (verbose : Bool) (paths : List String) (files : List ClassFile) : List String :=
  if verbose then
    List.zipWith (fun path file =>
      "[~] Loaded " ++ Nat.repr file.classes.length ++ " class(es) from " ++ path) paths files
  else []

theorem Session.Loads.put {s : Session} {paths : List String} {files : List ClassFile}
    (loads : s.Loads readers paths files) (text : String) :
    (s.put text).Loads readers paths files := loads

theorem outcome_load {α : Type} {parse : String → Except Yaml.Fault α} {failure : Failure}
    {path : String} {s : Session} {text : String} {a : α} (hread : s.tree.read? path = some text)
    (hparse : parse text = .ok a) :
    outcome (load parse failure path) s = (.ok a, s) := by
  have hread' : outcome (liftM (Host.read? (m := StateM Session) path)) s =
      (.ok (some text), s) := by
    rw [← hread]
    rfl
  rw [load, outcome_bind_ok hread', Option.map_some, hparse]
  rfl

/-- Files that are there are loaded into one program, in order. -/
theorem outcome_loadProgram (verbose : Bool) {s : Session} {paths : List String}
    {files : List ClassFile} (loads : s.Loads readers paths files) (p : Program) :
    outcome (loadProgram readers verbose p paths) s =
      (.ok (p.populateAll (merged files).classes).1,
        s.put (unlines (loadLines verbose paths files))) := by
  induction paths generalizing s p files with
  | nil =>
    cases loads
    cases verbose <;> exact congrArg (Prod.mk _) (put_empty s).symm
  | cons path paths ih =>
    cases loads with
    | @cons _ file _ files hfile rest =>
      obtain ⟨text, hread, hparse⟩ := hfile
      have hmerged : (p.populateAll (merged (file :: files)).classes).1 =
          ((p.populateAll file.classes).1.populateAll (merged files).classes).1 := by
        rw [merged, List.flatMap_cons, Program.populateAll_append]
        rfl
      rw [loadProgram, outcome_bind_ok (outcome_load hread hparse), hmerged]
      cases verbose with
      | false => exact ih rest _
      | true =>
        have hsaid :=
          outcome_say ("[~] Loaded " ++ Nat.repr (p.populateAll file.classes).2.length ++
          " class(es) from " ++ path) s
        simp only [if_true]
        rw [outcome_bind_ok hsaid, ih (Session.Loads.put rest _), put_put,
          Program.length_populateAll]
        rfl

/-! ### The listing -/

theorem outcome_analyze {c : Command} {s : Session} {files : List ClassFile}
    (loads : s.Loads readers c.files files) : outcome (analyze readers c) s =
      let notes := notes (merged files).toProgram
      let faulty := (notes.filter ClassNote.isFaulty).length
      (verdict .notSynthesizable faulty,
        s.put (unlines (loadLines c.verbose c.files files) ++ unlines (noteLines notes))) := by
  have hload := outcome_loadProgram c.verbose loads .empty
  have hprogram : (Program.empty.populateAll (merged files).classes).1 = (merged files).toProgram :=
    rfl
  rw [analyze, outcome_bind_ok hload, hprogram, listing_eq]
  simp only
  rw [outcome_bind_ok (outcome_sayAll _ _), put_put]
  exact outcome_verdict ..

/-! ### Generation -/

/-- The file system has refused what the failure names and left this tree. -/
def Refused : Failure → FileTree → Prop
  | .directory path, t => ∃ u : FileTree, u.makeDirectory path = (t, false)
  | .source path, t => ∃ (u : FileTree) (text : String), u.write path text = (t, false)
  | _, _ => False

/-- A step that stops where the file system refuses something. Otherwise it prints to the output, if
at all. -/
def Tries (x : ExceptT Failure (StateM Session) Unit) : Prop :=
  ∀ s, (∃ e t, outcome x s = (.error e, t) ∧ Refused e t.tree) ∨
    ∃ t log, outcome x s = (.ok (), t) ∧ t.errors = s.errors ∧ t.output = s.output ++ log

namespace Tries

theorem pure : Tries (pure ()) := fun s => .inr ⟨s, "", rfl, rfl, by simp⟩

theorem say (text : String) : Tries (say text) := fun s => .inr ⟨_, _, outcome_say text s, rfl, rfl⟩

theorem bind {x : ExceptT Failure (StateM Session) Unit}
    {f : Unit → ExceptT Failure (StateM Session) Unit} (hx : Tries x)
    (hf : Tries (f ())) : Tries (x >>= f) := by
  intro s
  rcases hx s with ⟨e, t, ht, he⟩ | ⟨t, log, ht, herrors, houtput⟩
  · exact .inl ⟨e, t, outcome_bind_error ht f, he⟩
  rcases hf t with ⟨e, u, hu, he⟩ | ⟨u, more, hu, herrors', houtput'⟩
  · exact .inl ⟨e, u, (outcome_bind_ok ht f).trans hu, he⟩
  · refine .inr ⟨u, log ++ more, (outcome_bind_ok ht f).trans hu, herrors'.trans herrors, ?_⟩
    rw [houtput', houtput, String.append_assoc]

theorem forIn {α : Type} {f : α → ExceptT Failure (StateM Session) Unit} (l : List α)
    (h : ∀ a ∈ l, Tries (f a)) : Tries (do for a in l do f a) := by
  induction l with
  | nil => exact pure
  | cons a l ih =>
    have hcons : (do for a in a :: l do f a) = (do f a; for a in l do f a) := by simp
    rw [hcons]
    exact (h a List.mem_cons_self).bind (ih fun b hb => h b (List.mem_cons_of_mem _ hb))

/-- A request to the file system prints nothing. Where it is refused, the step stops. -/
theorem request {x : StateM Session Bool} {e : Failure} {y : ExceptT Failure (StateM Session) Unit}
    (hx : ∀ s, (x s).2.errors = s.errors ∧ (x s).2.output = s.output)
    (hrefused : ∀ s, (x s).1 = false → Refused e (x s).2.tree) (hy : Tries y) :
    Tries (do
      unless ← liftM x do throw e
      y) := by
  intro s
  have hlift : outcome (liftM x) s = (.ok (x s).1, (x s).2) := rfl
  cases hdone : (x s).1 with
  | false =>
    refine .inl ⟨e, (x s).2, ?_, hrefused s hdone⟩
    rw [outcome_bind_ok hlift, hdone]
    rfl
  | true =>
    rcases hy (x s).2 with ⟨e, t, ht, he⟩ | ⟨t, log, ht, herrors, houtput⟩
    · refine .inl ⟨e, t, ?_, he⟩
      rw [outcome_bind_ok hlift, hdone]
      exact ht
    · refine .inr ⟨t, log, ?_, herrors.trans (hx s).1, ?_⟩
      · rw [outcome_bind_ok hlift, hdone]
        exact ht
      · rw [houtput, (hx s).2]

end Tries

theorem tries_writeSource (c : Command) {p : Program} {id : NodeId} {decl : ClassDecl}
    (hclass : p.class? id = some decl)
    (hsource : Succeeds (Java.emitClass p { package := c.package } id)) :
    Tries (writeSource c p id) := by
  obtain ⟨source, hsource⟩ := hsource
  simp only [writeSource, hclass, hsource]
  refine Tries.request (x := Host.write (joinPath c.output (decl.name ++ ".java")) source)
    (e := .source _) (fun s => ⟨rfl, rfl⟩) (fun s hdone => ⟨s.tree, source, Prod.ext rfl hdone⟩) ?_
  split
  · exact .say _
  · exact .pure

/-- Writing sources of classes that have some stops only where the file system refuses something. -/
theorem tries_writeSources (c : Command) {p : Program} {classes : List NodeId}
    (h : ∀ id ∈ classes, ∃ decl, p.class? id = some decl ∧
      Succeeds (Java.emitClass p { package := c.package } id)) :
        Tries (writeSources c p classes) := by
  have hloop : Tries (do for id in classes do writeSource c p id) := by
    refine Tries.forIn classes fun id hid => ?_
    obtain ⟨decl, hclass, hsource⟩ := h id hid
    exact tries_writeSource c hclass hsource
  unfold writeSources
  split
  · exact hloop
  · exact Tries.request (x := Host.makeDirectory c.output) (e := .directory c.output)
      (fun s => ⟨rfl, rfl⟩) (fun s hdone => ⟨s.tree, Prod.ext rfl hdone⟩) hloop

theorem outcome_conclude (b : Batch) (s : Session) :
    outcome (conclude b) s =
      (verdict .reported b.errors.length,
        (s.putError (unlines (b.diagnostics.map (diagnosticLine b.program)))).put
          (summary b.report ++ "\n")) := by
  rw [conclude, outcome_bind_ok (outcome_complainAll _ s), outcome_bind_ok (outcome_say _ _)]
  exact outcome_verdict ..

/-- Reading leaves everything as it is. -/
theorem session_load {α : Type} (parse : String → Except Yaml.Fault α) (failure : Failure)
    (path : String) (s : Session) : (outcome (load parse failure path) s).2 = s := by
  have hread : outcome (liftM (Host.read? (m := StateM Session) path)) s =
    (.ok (s.tree.read? path), s) := rfl
  rw [load, outcome_bind_ok hread]
  split <;> rfl

theorem session_resolveConfig (readers : Readers) (env : Environment) (named : Option String)
    (s : Session) : (outcome (resolveConfig readers env named) s).2 = s := by
  unfold resolveConfig
  cases named with
  | some path => exact session_load ..
  | none =>
    cases env.defaultConfig with
    | none => rfl
    | some path =>
      have hpresent : outcome (liftM (Host.isPresent (m := StateM Session) path)) s =
          (.ok (s.tree.isPresent path), s) := rfl
      simp only
      rw [outcome_bind_ok hpresent]
      split
      · exact session_load ..
      · rfl

/-- The methods of all accessor types after a run, if they are asked for. -/
def dumpLines (c : Command) (b : Batch) : List String :=
  if c.printIr then [(methodDump b.program (b.report.injected ++ b.report.alreadyPresent)).pretty]
    else []

/-- Generation over files that load, with injection: some lines go to the output, then sources are
written and the run is summed up. -/
theorem outcome_codegen_eq {env : Environment} {c : Command} {s : Session} {files : List ClassFile}
    {config : Config} (loads : s.Loads readers c.files files)
    (hconfig : (outcome (resolveConfig readers env c.config) s).1 = .ok config)
    (inline : (config.inline || c.inline) = true) :
    let b := Batch.run true (merged files).toProgram
    let header := if c.verbose then headerLines c { config with inline := true } else []
    outcome (codegen readers env c) s =
      outcome (do
        writeSources c b.program (b.report.injected ++ b.report.alreadyPresent)
        conclude b)
        (s.put (unlines header ++ unlines (loadLines c.verbose c.files files) ++
          unlines (dumpLines c b))) := by
  intro b header
  have hresolve : outcome (resolveConfig readers env c.config) s = (.ok config, s) :=
    Prod.ext hconfig (session_resolveConfig readers env c.config s)
  have hprogram : (Program.empty.populateAll (merged files).classes).1 = (merged files).toProgram :=
    rfl
  rw [codegen, outcome_bind_ok hresolve]
  simp only [inline]
  rw [outcome_bind_ok (outcome_sayAll _ s),
    outcome_bind_ok (outcome_loadProgram c.verbose (loads.put _) .empty), hprogram, put_put,
    outcome_bind_ok (outcome_sayAll _ _), put_put]
  rfl

/-- The file system refuses something, or all sources are written and what is left is to say what
the run had to say. -/
theorem codegen_cases {env : Environment} {c : Command} {s : Session} {files : List ClassFile}
    {config : Config} (loads : s.Loads readers c.files files)
    (hconfig : (outcome (resolveConfig readers env c.config) s).1 = .ok config)
    (inline : (config.inline || c.inline) = true) :
    let b := Batch.run true (merged files).toProgram
    (∃ e t, outcome (codegen readers env c) s = (.error e, t) ∧ Refused e t.tree) ∨
      ∃ start t log more,
        outcome (writeSources c b.program (b.report.injected ++ b.report.alreadyPresent))
          start = (.ok (), t) ∧
        t.errors = s.errors ∧ t.output = s.output ++ (log ++ unlines (dumpLines c b) ++ more) ∧
        outcome (codegen readers env c) s = outcome (conclude b) t := by
  intro b
  have hsources : Tries (writeSources c b.program (b.report.injected ++ b.report.alreadyPresent)) :=
    tries_writeSources c fun id hid => ClassFile.succeeds_of_treated (merged files) _ hid
  rw [outcome_codegen_eq loads hconfig inline]
  rcases hsources (s.put _) with ⟨e, t, ht, he⟩ | ⟨t, more, ht, herrors, houtput⟩
  · exact .inl ⟨e, t, outcome_bind_error ht _, he⟩
  · exact .inr ⟨_, t, _, more, ht, herrors, houtput.trans String.append_assoc, outcome_bind_ok ht _⟩

/-- Where the file system refuses nothing, all diagnostics and the summary of the run are shown. -/
theorem outcome_codegen {env : Environment} {c : Command} {s : Session} {files : List ClassFile}
    {config : Config} (loads : s.Loads readers c.files files)
    (hconfig : (outcome (resolveConfig readers env c.config) s).1 = .ok config)
    (inline : (config.inline || c.inline) = true) :
    let b := Batch.run true (merged files).toProgram
    (∃ e t, outcome (codegen readers env c) s = (.error e, t) ∧ Refused e t.tree) ∨
      ∃ t log, outcome (codegen readers env c) s = (verdict .reported b.errors.length, t) ∧
        t.errors = s.errors ++ unlines (b.diagnostics.map (diagnosticLine b.program)) ∧
        t.output = s.output ++ log ++ (summary b.report ++ "\n") := by
  intro b
  rcases codegen_cases loads hconfig inline
    with refused | ⟨_, t, log, more, -, herrors, houtput, hrun⟩
  · exact .inl refused
  · exact .inr ⟨_, _, hrun.trans (outcome_conclude b t), congrArg (· ++ _) herrors,
      congrArg (· ++ _) houtput⟩

/-! ### Exit codes -/

/-- What is left of a command when it is over: an exit code, and the session with a last line if it
failed. -/
def ended : Except Failure Unit × Session → Nat × Session
  | (.ok _, s) => (0, s)
  | (.error e, s) => (e.exitCode, s.putError ("Error: " ++ e.message ++ "\n"))

theorem execute_eq {env : Environment} {args : List String} {c : Command}
    (h : readers.command env.inlineSetting args = .ok c) (s : Session) :
    (execute readers env args : StateM Session Nat) s = ended (outcome (c.run readers env) s) := by
  show StateT.run (execute readers env args) s = _
  cases hrun : outcome (c.run readers env) s with
  | mk r t =>
    have hstate : StateT.run (c.run readers env : ExceptT Failure (StateM Session) Unit).run s =
      (r, t) := hrun
    rw [execute, h]
    simp only
    rw [StateT.run_bind, hstate]
    cases r <;> rfl

theorem exitCode_ne_zero (e : Failure) : e.exitCode ≠ 0 := by
  cases e <;> simp [Failure.exitCode]

theorem ended_verdict_iff (failure : Nat → Failure) (count : Nat) (s : Session) :
    (ended (verdict failure count, s)).1 ≠ 0 ↔ count ≠ 0 := by
  by_cases h : count = 0
  · simp [verdict, h, ended]
  · simp [verdict, h, ended, exitCode_ne_zero]

/-! ### Both commands on the same files -/

theorem plain_merged {files : List ClassFile} (plain : ∀ f ∈ files, f.Plain) :
    (merged files).Plain := by
  intro c hc
  obtain ⟨f, hf, hc⟩ := List.mem_flatMap.mp hc
  exact plain f hf c hc

/-- A fault with the name of its class, as generation shows it. -/
def faultLine (x : String × String) : String := "error: " ++ x.1 ++ ": " ++ x.2

theorem diagnosticLines_errors (b : Batch) :
    b.errors.map (diagnosticLine b.program) =
      (b.errors.map fun d => (Batch.ownerName b.program d, d.message)).map faultLine := by
  rw [List.map_map]
  refine List.map_congr_left fun d hd => ?_
  have hseverity : d.severity = .error := by simpa using (List.mem_filter.mp hd).2
  rw [diagnosticLine, hseverity]
  rfl

/-- A listing and a generation over one program, both from one session, find the same faults. The
texts are the commands' own lines, without those of a log. -/
structure Forecast (p : Program) (s : Session) (listed generated : Nat × Session) : Prop where
  faults : (notes p).flatMap ClassNote.faults =
    (Batch.run true p).errors.map fun d => (Batch.ownerName (Batch.run true p).program d, d.message)
  failures : ((notes p).filter ClassNote.isFaulty).length = (Batch.run true p).report.failed.length
  listing : ∃ log,
    listed = ended (verdict .notSynthesizable ((notes p).filter ClassNote.isFaulty).length,
      s.put (log ++ unlines (noteLines (notes p))))
  exit : listed.1 ≠ 0 ↔ (Batch.run true p).errors ≠ []
  /-- Either the file system stops the generation, or it comes to its end. -/
  generation : (∃ e t, generated = ended (.error e, t) ∧ Refused e t.tree) ∨
    (generated.1 ≠ 0 ↔ listed.1 ≠ 0) ∧
      ∃ t log, generated = ended (verdict .reported (Batch.run true p).errors.length, t) ∧
        t.errors = s.errors ++ unlines (((notes p).flatMap ClassNote.faults).map faultLine) ∧
        t.output = s.output ++ log ++ (summary (Batch.run true p).report ++ "\n")

/-- A listing foretells what generation will report of the same files, if their markers are on
classes. -/
theorem listing_forecasts_generation {env : Environment} {listArgs genArgs : List String}
    {a c : Command} {s : Session} {files : List ClassFile} {config : Config}
    (hlist : readers.command env.inlineSetting listArgs = .ok a) (hanalyze : a.action = .analyze)
    (hgen : readers.command env.inlineSetting genArgs = .ok c) (hcodegen : c.action = .codegen)
    (same : a.files = c.files) (loads : s.Loads readers c.files files)
    (plain : ∀ f ∈ files, f.Plain)
    (hconfig : (outcome (resolveConfig readers env c.config) s).1 = .ok config)
    (inline : (config.inline || c.inline) = true) :
    Forecast (merged files).toProgram s ((execute readers env listArgs : StateM Session Nat) s)
      ((execute readers env genArgs : StateM Session Nat) s) := by
  have hplain := plain_merged plain
  have hfaults := Batch.errors_eq_faults hplain.misplacedMarkers
  have hfailures := Batch.length_failed (merged files).toProgram
  have hlisted : (execute readers env listArgs : StateM Session Nat) s =
      ended (outcome (analyze readers a) s) := by
    rw [execute_eq hlist, Command.run, hanalyze]
  have hgenerated : (execute readers env genArgs : StateM Session Nat) s =
      ended (outcome (codegen readers env c) s) := by
    rw [execute_eq hgen, Command.run, hcodegen]
  rw [outcome_analyze (same ▸ loads)] at hlisted
  have hexit : ((execute readers env listArgs : StateM Session Nat) s).1 ≠ 0 ↔
      (Batch.run true (merged files).toProgram).errors ≠ [] := by
    rw [hlisted, ended_verdict_iff, Ne, ← Batch.faults_eq_nil_iff, ← hfaults, List.map_eq_nil_iff]
  refine ⟨hfaults.symm, hfailures.symm, ⟨_, hlisted⟩, hexit, ?_⟩
  rcases outcome_codegen loads hconfig inline with ⟨e, t, ht, he⟩ | ⟨t, log, ht, herrors, houtput⟩
  · exact .inl ⟨e, t, hgenerated.trans (congrArg ended ht), he⟩
  · rw [ht] at hgenerated
    -- without misplaced markers there are no warnings, and only errors are shown
    rw [hplain.diagnostics, diagnosticLines_errors, hfaults] at herrors
    refine .inr ⟨?_, t, log, hgenerated, herrors, houtput⟩
    rw [hexit, hgenerated, ended_verdict_iff, Ne, List.length_eq_zero_iff]

/-- Two files, each with the path and the text that it is read from. The field in the first one has
no setter. -/
def shop : List (String × String × ClassFile) :=
  [("order.yml",
    "classes: [\x7bname: Order, annotations: [Entity], " ++
      "fields: [\x7bname: total, type: int64, accessors: get\x7d]\x7d]",
    { classes := [{
        name := "Order", annotations := ["Entity"]
        fields := [{ name := "total", type := .primitive .int64, accessors := .get }] }] }),
   ("line.yml",
    "classes: [{name: Line, annotations: [Entity], fields: [{name: price, type: int64}]}]",
    { classes := [{
        name := "Line", annotations := ["Entity"]
        fields := [{ name := "price", type := .primitive .int64 }] }] })]

def shopFiles : List ClassFile := shop.map fun f => f.2.2

def shopSession : Session where
  tree := shop.foldl (fun t f => t.insert f.1 f.2.1) (.empty "shop")

/-- Files that are there and can be read, each with its path and its text, are loaded. -/
theorem loads_of_entries {s : Session} {entries : List (String × String × ClassFile)}
    (hread : ∀ f ∈ entries, s.tree.read? f.1 = some f.2.1)
    (hparse : ∀ f ∈ entries, (readers.classFile f.2.1).toOption = some f.2.2) :
    s.Loads readers (entries.map Prod.fst) (entries.map fun f => f.2.2) := by
  rw [Session.Loads, List.forall₂_map_left_iff, List.forall₂_map_right_iff, List.forall₂_same]
  intro f hf
  refine ⟨f.2.1, hread f hf, ?_⟩
  have hfile := hparse f hf
  cases hresult : readers.classFile f.2.1 with
  | ok file =>
    rw [hresult] at hfile
    exact congrArg Except.ok (Option.some.inj hfile)
  | error e =>
    rw [hresult] at hfile
    cases hfile

theorem loads_shop : shopSession.Loads .standard (shop.map Prod.fst) shopFiles :=
  loads_of_entries (by decide +kernel) (by decide +kernel)

theorem shop_listing_forecasts :
    shopSession.Loads .standard ["order.yml", "line.yml"] shopFiles ∧ (∀ f ∈ shopFiles, f.Plain) ∧
      (Batch.run true (merged shopFiles).toProgram).errors.length = 1 ∧
      Forecast (merged shopFiles).toProgram shopSession
        ((execute .standard {} ["analyze", "-f", "order.yml", "-f", "line.yml"] :
          StateM Session Nat) shopSession)
        ((execute .standard {} ["codegen", "--inline", "-f", "order.yml", "-f", "line.yml"] :
          StateM Session Nat) shopSession) := by
  have hplain : ∀ f ∈ shopFiles, f.Plain := by
    simp [shopFiles, shop, ClassFile.Plain]
  have hlist : Readers.standard.command none ["analyze", "-f", "order.yml", "-f", "line.yml"] =
    .ok { action := .analyze, files := ["order.yml", "line.yml"] } := rfl
  have hgen :
    Readers.standard.command none ["codegen", "--inline", "-f", "order.yml", "-f", "line.yml"] =
    .ok { action := .codegen, files := ["order.yml", "line.yml"], inline := true } := rfl
  exact ⟨loads_shop, hplain, by decide +kernel,
    listing_forecasts_generation hlist rfl hgen rfl rfl loads_shop hplain rfl rfl⟩

end CommandLine

end FieldAccess
