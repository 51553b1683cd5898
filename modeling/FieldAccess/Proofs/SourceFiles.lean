import FieldAccess.Proofs.CommandRuns
import FieldAccess.Proofs.FileTrees

/-! What generation leaves behind. Files and listed methods go by the names of classes. So the
output of a class is there in the end unless a later class has the same name. -/
namespace FieldAccess

/-- The last entry of a list with a property. -/
def IsLast {α : Type} (P : α → Prop) (l : List α) (a : α) : Prop :=
  ∃ before after, l = before ++ a :: after ∧ P a ∧ ∀ b ∈ after, ¬ P b

theorem exists_isLast {α : Type} {P : α → Prop} {l : List α} (h : ∃ a ∈ l, P a) :
    ∃ a, IsLast P l a := by
  induction l using List.reverseRecOn with
  | nil =>
    obtain ⟨a, ha, -⟩ := h
    cases ha
  | append_singleton l b ih =>
    by_cases hb : P b
    · exact ⟨b, l, [], rfl, hb, nofun⟩
    obtain ⟨a, ha, hPa⟩ := h
    have hmem : a ∈ l := by
      rcases List.mem_append.mp ha with ha | ha
      · exact ha
      · exact absurd (List.mem_singleton.mp ha ▸ hPa) hb
    obtain ⟨x, before, after, rfl, hx, hafter⟩ := ih ⟨a, hmem, hPa⟩
    refine ⟨x, before, after ++ [b], by simp, hx, fun y hy => ?_⟩
    rcases List.mem_append.mp hy with hy | hy
    · exact hafter y hy
    · exact List.mem_singleton.mp hy ▸ hb

theorem IsLast.unique {α : Type} {P : α → Prop} {l : List α} {a b : α} (ha : IsLast P l a)
    (hb : IsLast P l b) : a = b := by
  obtain ⟨before, after, rfl, hPa, hafter⟩ := ha
  obtain ⟨before', after', heq, hPb, hafter'⟩ := hb
  -- one of them would stand behind the other
  rcases List.append_eq_append_iff.mp heq with ⟨m, -, hm⟩ | ⟨m, -, hm⟩
  · cases m with
    | nil => exact List.head_eq_of_cons_eq hm
    | cons x m =>
      have hmem : b ∈ after := by simp [List.tail_eq_of_cons_eq hm]
      exact absurd hPb (hafter b hmem)
  · cases m with
    | nil => exact (List.head_eq_of_cons_eq hm).symm
    | cons x m =>
      have hmem : a ∈ after' := by simp [List.tail_eq_of_cons_eq hm]
      exact absurd hPa (hafter' a hmem)

theorem IsLast.mem {α : Type} {P : α → Prop} {l : List α} {a : α} (h : IsLast P l a) : a ∈ l := by
  obtain ⟨before, after, rfl, -, -⟩ := h
  exact List.mem_append_right _ List.mem_cons_self

/-- A class of a program by its name. -/
def Program.Named (p : Program) (name : String) (id : NodeId) : Prop :=
  (p.class? id).map ClassDecl.name = some name

/-- The accessor type of a class that a run treats is the one that is synthesized for it. -/
theorem ClassFile.methods_of_treated (f : ClassFile) {id : NodeId}
    (h : id ∈ (Batch.run true f.toProgram).report.injected ++
      (Batch.run true f.toProgram).report.alreadyPresent) :
    ∃ m nested origin, synthesize f.toProgram (.ofProgram f.toProgram) id = .ok m ∧
      (Batch.run true f.toProgram).program.findReserved? id = some (nested, origin) ∧
      ((Batch.run true f.toProgram).program.methodsOf nested).map Prod.snd =
        m.methods.map MethodSpec.toDecl := by
  have hid := Batch.mem_candidates_of_treated _ h
  have servable := ((Batch.run_isolates f.toProgram).served_iff hid).mp (List.mem_append.mp h)
  obtain ⟨⟨nested, origin⟩, hfound⟩ :=
    Option.isSome_iff_exists.mp (Batch.findReserved?_run _ hid servable)
  have served := Batch.run_served f.toProgram_closed f.toProgram_findReserved? true
  obtain ⟨-, -, c, fields, hc, hcatalog, hmethods⟩ := served.reserved id nested origin hfound
  refine ⟨Synthesis.mapper id c.name fields, nested, origin, ?_, hfound, hmethods⟩
  rw [synthesize_of_class hc, hcatalog]
  rfl

namespace CommandLine

/-- The file for the source of a class. -/
def sourcePath (c : Command) (name : String) : String := joinPath c.output (name ++ ".java")

theorem isFileName_source {name : String} (h : '/' ∉ name.toList) :
    IsFileName (name ++ ".java") := by
  have hlength : (name ++ ".java").toList.length = name.toList.length + 5 := by
    rw [String.toList_append, List.length_append]
    rfl
  have hne : ∀ other : String, other.toList.length < 5 → name ++ ".java" ≠ other := by
    rintro other hother rfl
    omega
  refine ⟨?_, hne "" (by decide), hne "." (by decide), hne ".." (by decide)⟩
  rw [String.toList_append, List.mem_append, not_or]
  exact ⟨h, by decide⟩

/-! ### One source -/

/-- A step that goes on after a request to the file system has been granted it. -/
theorem outcome_request_ok {x : StateM Session Bool} {e : Failure}
    {y : ExceptT Failure (StateM Session) Unit} {s t : Session}
    (h : outcome (do
      unless ← liftM x do throw e
      y) s = (.ok (), t)) :
    (x s).1 = true ∧ outcome y (x s).2 = (.ok (), t) := by
  have hlift : outcome (liftM x) s = (.ok (x s).1, (x s).2) := rfl
  rw [outcome_bind_ok hlift] at h
  cases hdone : (x s).1 with
  | false =>
    rw [hdone] at h
    cases h
  | true =>
    rw [hdone] at h
    exact ⟨rfl, h⟩

theorem outcome_writeSource {c : Command} {p : Program} {id : NodeId} {s t : Session}
    {decl : ClassDecl} (hclass : p.class? id = some decl)
    (h : outcome (writeSource c p id) s = (.ok (), t)) :
    ∃ source, Java.emitClass p { package := c.package } id = .ok source ∧
      s.tree.write (sourcePath c decl.name) source = (t.tree, true) := by
  simp only [writeSource, hclass] at h
  cases hsource : Java.emitClass p { package := c.package } id with
  | error e =>
    rw [hsource] at h
    cases h
  | ok source =>
    rw [hsource] at h
    obtain ⟨hdone, hrest⟩ := outcome_request_ok h
    refine ⟨source, rfl, Prod.ext ?_ hdone⟩
    -- a line about the file changes no file
    split at hrest <;> cases hrest <;> rfl

/-! ### All sources -/

section Loop
variable {c : Command} {p : Program}

theorem outcome_forIn_cons {α : Type} {f : α → ExceptT Failure (StateM Session) Unit}
    {a : α} {l : List α} {s t : Session} (h : outcome (do for a in a :: l do f a) s = (.ok (), t)) :
    ∃ u, outcome (f a) s = (.ok (), u) ∧ outcome (do for a in l do f a) u = (.ok (), t) := by
  have hcons : (do for a in a :: l do f a) = (do f a; for a in l do f a) := by simp
  rw [hcons, outcome_bind] at h
  cases hfirst : outcome (f a) s with
  | mk r u =>
    rw [hfirst] at h
    cases r with
    | error e => cases h
    | ok _ => exact ⟨u, rfl, h⟩

/-- Sources of other classes leave a file as it is. -/
theorem read?_frame {ids : List NodeId} {s t : Session}
    (h : outcome (do for id in ids do writeSource c p id) s = (.ok (), t))
    (slashless : ∀ id ∈ ids, ∀ decl, p.class? id = some decl → '/' ∉ decl.name.toList)
    {name : String} (hname : '/' ∉ name.toList) (hother : ∀ id ∈ ids, ¬ p.Named name id) :
    t.tree.read? (sourcePath c name) = s.tree.read? (sourcePath c name) := by
  induction ids generalizing s with
  | nil =>
    cases h
    rfl
  | cons id ids ih =>
    obtain ⟨u, hfirst, hrest⟩ := outcome_forIn_cons h
    rw [List.forall_mem_cons] at slashless hother
    rw [ih hrest slashless.2 hother.2]
    cases hclass : p.class? id with
    | none =>
      simp only [writeSource, hclass] at hfirst
      cases hfirst
      rfl
    | some decl =>
      obtain ⟨source, -, hwrite⟩ := outcome_writeSource hclass hfirst
      obtain ⟨place, hplace, -, -⟩ := FileTree.write_eq_iff.mp hwrite
      refine FileTree.read?_write_other hwrite ?_
      have hne : name ++ ".java" ≠ decl.name ++ ".java" := by
        intro heq
        have hsame : name = decl.name := by simpa using heq
        exact hother.1 (by rw [Program.Named, hclass, hsame]; rfl)
      rw [hplace]
      exact FileTree.place?_joinPath_ne (isFileName_source hname)
        (isFileName_source (slashless.1 decl hclass)) hne hplace

/-- The source of the last class of a name is in its file in the end. -/
theorem read?_last {ids : List NodeId} {s t : Session}
    (h : outcome (do for id in ids do writeSource c p id) s = (.ok (), t))
    (slashless : ∀ id ∈ ids, ∀ decl, p.class? id = some decl → '/' ∉ decl.name.toList)
    {name : String} {last : NodeId} (hlast : IsLast (p.Named name) ids last) :
    ∃ source, Java.emitClass p { package := c.package } last = .ok source ∧
      t.tree.read? (sourcePath c name) = some source := by
  obtain ⟨before, after, rfl, hnamed, hafter⟩ := hlast
  obtain ⟨decl, hclass, rfl⟩ := Option.map_eq_some_iff.mp hnamed
  induction before generalizing s with
  | nil =>
    obtain ⟨u, hfirst, hrest⟩ := outcome_forIn_cons h
    rw [List.nil_append, List.forall_mem_cons] at slashless
    obtain ⟨source, hsource, hwrite⟩ := outcome_writeSource hclass hfirst
    refine ⟨source, hsource, ?_⟩
    rw [read?_frame hrest slashless.2 (slashless.1 decl hclass) hafter]
    exact FileTree.read?_write hwrite
  | cons id before ih =>
    obtain ⟨u, -, hrest⟩ := outcome_forIn_cons h
    exact ih hrest fun x hx => slashless x (List.mem_cons_of_mem _ hx)

theorem outcome_writeSources {ids : List NodeId} {s t : Session}
    (h : outcome (writeSources c p ids) s = (.ok (), t)) :
    ∃ u, outcome (do for id in ids do writeSource c p id) u = (.ok (), t) := by
  unfold writeSources at h
  split at h
  · exact ⟨s, h⟩
  · exact ⟨_, (outcome_request_ok h).2⟩

end Loop

/-! ### The listed methods -/

/-- Under a name are listed the methods for the last class of this name. -/
theorem methodDump_last {p : Program} {ids : List NodeId} {name : String} {last nested : NodeId}
    {origin : Origin} (hlast : IsLast (p.Named name) ids last)
    (hfound : p.findReserved? last = some (nested, origin)) :
    ∃ members, methodDump p ids = .obj members ∧
      Assoc.get? name members =
        some (.arr ((p.methodsOf nested).map fun method => method.2.toJson)) := by
  obtain ⟨before, after, rfl, hnamed, hafter⟩ := hlast
  obtain ⟨decl, hclass, rfl⟩ := Option.map_eq_some_iff.mp hnamed
  refine ⟨_, rfl, ?_⟩
  rw [List.filterMap_append, List.filterMap_cons]
  simp only [hclass, hfound]
  apply Assoc.get?_ofPairs_of_last
  simp only [Assoc.keys, List.mem_map, List.mem_filterMap]
  rintro ⟨⟨key, methods⟩, ⟨id, hid, hentry⟩, rfl⟩
  split at hentry
  · next other _ _ hother _ =>
    rw [Option.some.injEq, Prod.mk.injEq] at hentry
    exact hafter id hid (by rw [Program.Named, hother, ← hentry.1]; rfl)
  · cases hentry

/-! ### The whole command -/

theorem slashless_of_treated {files : List ClassFile}
    (slashless : ∀ f ∈ files, ∀ d ∈ f.classes, '/' ∉ d.name.toList) :
    let b := Batch.run true (merged files).toProgram
    ∀ id ∈ b.report.injected ++ b.report.alreadyPresent, ∀ decl, b.program.class? id = some decl →
      '/' ∉ decl.name.toList := by
  intro b id hid decl hclass
  obtain ⟨d, _, hplaced, hclass', hname⟩ := (merged files).placed_of_treated hid
  rw [hclass, Option.some.injEq] at hclass'
  obtain ⟨f, hf, hd⟩ := List.mem_flatMap.mp (List.of_mem_zip hplaced).2
  rw [hclass', hname]
  exact slashless f hf d hd

theorem ended_session (r : Except Failure Unit) (s : Session) :
    (ended (r, s)).2.tree = s.tree ∧ (ended (r, s)).2.output = s.output := by
  cases r <;> exact ⟨rfl, rfl⟩

/-- The output of a class under its name: its source is in the file, and the methods made for it are
in the list of methods. -/
structure Delivered (c : Command) (p : Program) (b : Batch) (tree : FileTree) (dump : Json)
    (name : String) (id : NodeId) : Prop where
  source : ∃ source, Java.emitClass b.program { package := c.package } id = .ok source ∧
    tree.read? (sourcePath c name) = some source
  methods : ∃ m members, synthesize p (.ofProgram p) id = .ok m ∧ dump = .obj members ∧
    Assoc.get? name members = some (.arr (m.methods.map fun method => method.toDecl.toJson))

theorem delivered_last {files : List ClassFile}
    (slashless : ∀ f ∈ files, ∀ d ∈ f.classes, '/' ∉ d.name.toList) {c : Command} {s t : Session} :
    let p := (merged files).toProgram
    let b := Batch.run true p
    let treated := b.report.injected ++ b.report.alreadyPresent
    outcome (writeSources c b.program treated) s = (.ok (), t) → ∀ name last,
      IsLast (b.program.Named name) treated last →
        Delivered c p b t.tree (methodDump b.program treated) name last := by
  intro p b treated hwrite name last hlast
  constructor
  · obtain ⟨u, hloop⟩ := outcome_writeSources hwrite
    exact read?_last hloop (slashless_of_treated slashless) hlast
  · obtain ⟨m, nested, origin, hm, hfound, hmethods⟩ := (merged files).methods_of_treated hlast.mem
    obtain ⟨members, hmembers, hget⟩ := methodDump_last hlast hfound
    refine ⟨m, members, hm, hmembers, hget.trans ?_⟩
    calc some (Json.arr ((b.program.methodsOf nested).map fun method => method.2.toJson))
        = some (.arr (((b.program.methodsOf nested).map Prod.snd).map MethodDecl.toJson)) := by
          rw [List.map_map]
          rfl
      _ = some (.arr (m.methods.map fun method => method.toDecl.toJson)) := by
          rw [hmethods, List.map_map]
          rfl

/-- Generation with injection over files whose class names have no slashes: the file system refuses
something, or each class that is treated has the output of the last one of its name, which is itself
where no later one has the name. -/
theorem last_class_delivered {readers : Readers} {env : Environment} {args : List String}
    {c : Command} {s : Session} {files : List ClassFile} {config : Config}
    (hparse : readers.command env.inlineSetting args = .ok c) (hcodegen : c.action = .codegen)
    (loads : s.Loads readers c.files files)
    (hconfig : (outcome (resolveConfig readers env c.config) s).1 = .ok config)
    (inline : (config.inline || c.inline) = true)
    (slashless : ∀ f ∈ files, ∀ d ∈ f.classes, '/' ∉ d.name.toList) :
    let p := (merged files).toProgram
    let b := Batch.run true p
    let treated := b.report.injected ++ b.report.alreadyPresent
    let dump := methodDump b.program treated
    let result := (execute readers env args : StateM Session Nat) s
    (∃ e t, result = ended (.error e, t) ∧ Refused e t.tree) ∨
      (c.printIr = true → ∃ log more, result.2.output = s.output ++ log ++
        (dump.pretty ++ "\n") ++ more) ∧
      ∀ id ∈ treated, ∃ decl last, b.program.class? id = some decl ∧
        IsLast (b.program.Named decl.name) treated last ∧
        Delivered c p b result.2.tree dump decl.name last ∧
        (IsLast (b.program.Named decl.name) treated id → last = id) := by
  intro p b treated dump result
  have hresult : result = ended (outcome (codegen readers env c) s) := by
    have hrun :
        c.run readers env = (codegen readers env c : ExceptT Failure (StateM Session) Unit) := by
      rw [Command.run, hcodegen]
    exact (execute_eq hparse s).trans (by rw [hrun])
  rcases codegen_cases loads hconfig inline
    with ⟨e, t, ht, he⟩ | ⟨_, t, log, more, hwrite, -, houtput, hrun⟩
  · exact .inl ⟨e, t, hresult.trans (congrArg ended ht), he⟩
  rw [hrun, outcome_conclude] at hresult
  have htree : result.2.tree = t.tree := by
    rw [hresult, (ended_session _ _).1]
    rfl
  refine .inr ⟨fun hprint => ?_, fun id hid => ?_⟩
  · refine ⟨log, more ++ (summary b.report ++ "\n"), ?_⟩
    have hdump : unlines (dumpLines c b) = dump.pretty ++ "\n" := by
      rw [dumpLines, if_pos hprint]
      exact String.append_empty
    have hwritten : t.output = s.output ++ (log ++ (dump.pretty ++ "\n") ++ more) := by
      rw [← hdump]
      exact houtput
    rw [hresult, (ended_session _ _).2]
    simp only [Session.put, Session.putError, hwritten, String.append_assoc]
    rfl
  · obtain ⟨_, decl, -, hclass, -⟩ := (merged files).placed_of_treated hid
    have hnamed : b.program.Named decl.name id := by
      rw [Program.Named, hclass]
      rfl
    obtain ⟨last, hlast⟩ := exists_isLast ⟨id, hid, hnamed⟩
    refine ⟨decl, last, hclass, hlast, ?_, fun h => hlast.unique h⟩
    rw [htree]
    exact delivered_last slashless hwrite decl.name last hlast

/-- Two files with a class of one name, each with its path and its text. -/
def twins : List (String × String × ClassFile) :=
  [("a.yml", "classes: [{name: A, annotations: [Entity], fields: [{name: x, type: bool}]}]",
    { classes := [{
        name := "A", annotations := ["Entity"]
        fields := [{ name := "x", type := .primitive .bool }] }] }),
   ("b.yml", "classes: [{name: A, annotations: [Entity], fields: [{name: y, type: bool}]}]",
    { classes := [{
        name := "A", annotations := ["Entity"]
        fields := [{ name := "y", type := .primitive .bool }] }] })]

def twinFiles : List ClassFile := twins.map fun f => f.2.2

def twinSession : Session where
  tree := twins.foldl (fun t f => t.insert f.1 f.2.1) (.empty "twins")

def twinArgs : List String := ["codegen", "--inline", "-f", "a.yml", "-f", "b.yml", "-o", "out"]

def twinCommand : Command where
  action := .codegen
  files := ["a.yml", "b.yml"]
  output := "out"
  inline := true

theorem parse_twinArgs :
    Readers.standard.command ({} : Environment).inlineSetting twinArgs = .ok twinCommand := rfl

theorem config_twins :
    (outcome (resolveConfig .standard {} twinCommand.config) twinSession).1 = .ok {} := rfl

theorem loads_twins : twinSession.Loads .standard (twins.map Prod.fst) twinFiles :=
  loads_of_entries (by decide +kernel) (by decide +kernel)

/-- The run without the reading of the files. -/
theorem execute_twins :
    let b := Batch.run true (merged twinFiles).toProgram
    (execute .standard {} twinArgs : StateM Session Nat) twinSession =
      ended (outcome (do
        writeSources twinCommand b.program (b.report.injected ++ b.report.alreadyPresent)
        conclude b) (twinSession.put "")) := by
  intro b
  rw [execute_eq parse_twinArgs]
  exact congrArg ended (outcome_codegen_eq loads_twins config_twins rfl)

theorem exit_twins : ((execute .standard {} twinArgs : StateM Session Nat) twinSession).1 = 0 := by
  rw [execute_twins]
  decide +kernel

theorem treated_twins :
    let b := Batch.run true (merged twinFiles).toProgram
    b.report.injected ++ b.report.alreadyPresent = [0, 4] := by
  decide +kernel

/-- The second class is there in the end. -/
theorem second_twin_delivered :
    let p := (merged twinFiles).toProgram
    let b := Batch.run true p
    let result := (execute .standard {} twinArgs : StateM Session Nat) twinSession
    Delivered twinCommand p b result.2.tree (methodDump b.program [0, 4]) "A" 4 := by
  have hnamed : (Batch.run true (merged twinFiles).toProgram).program.Named "A" 4 := by
    unfold Program.Named
    decide +kernel
  have slashless : ∀ f ∈ twinFiles, ∀ d ∈ f.classes, '/' ∉ d.name.toList := by decide
  have run := last_class_delivered parse_twinArgs rfl loads_twins config_twins rfl slashless
  dsimp only at run ⊢
  rw [treated_twins] at run
  rcases run with ⟨e, t, hrefused, -⟩ | ⟨-, delivered⟩
  · have hexit := exit_twins
    rw [hrefused] at hexit
    exact absurd hexit (exitCode_ne_zero e)
  · obtain ⟨decl, last, hclass, -, hlast, hself⟩ := delivered 4 (by decide)
    have hname : decl.name = "A" := by
      rw [Program.Named, hclass] at hnamed
      exact Option.some.inj hnamed
    rw [hname] at hlast hself
    rwa [hself ⟨[0], [], rfl, hnamed, nofun⟩] at hlast

/-- The first class is treated like the second, but its source is lost: the command succeeds, and
the file of its name holds another text. -/
theorem first_twin_lost :
    let b := Batch.run true (merged twinFiles).toProgram
    let result := (execute .standard {} twinArgs : StateM Session Nat) twinSession
    twinSession.Loads .standard twinCommand.files twinFiles ∧ result.1 = 0 ∧ 0 ∈ b.report.injected ∧
    b.program.Named "A" 0 ∧
      ∃ source, Java.emitClass b.program {} 0 = .ok source ∧
        result.2.tree.read? (sourcePath twinCommand "A") ≠ some source := by
  intro b result
  have hinjected : 0 ∈ b.report.injected := by decide +kernel
  have hnamed : (b.program.class? 0).map ClassDecl.name = some "A" := by decide +kernel
  have hlost : result.2.tree.read? (sourcePath twinCommand "A") ≠
      (Java.emitClass b.program {} 0).toOption := by
    rw [show result = _ from execute_twins]
    decide +kernel
  obtain ⟨_, -, source, hsource⟩ :=
    (merged twinFiles).succeeds_of_treated {} (List.mem_append_left _ hinjected)
  refine ⟨loads_twins, exit_twins, hinjected, hnamed, source, hsource, ?_⟩
  rwa [hsource] at hlost

end CommandLine

end FieldAccess
