import FieldAccess.Proofs.Isolation
import FieldAccess.Proofs.Reruns

/-! What a run does to one class of a list that has been added to a program: the place it takes in
the report, what is said about it, and where its accessor type stands. None of this is seen by the
other classes. -/
namespace FieldAccess

/-! ### Lists with keys -/

/-- What is filed under a key comes from the entries with that key. -/
theorem filter_flatMap_of_key {κ α β : Type} [DecidableEq κ] (key : α → κ) {anchor : β → κ}
    {f : α → List β} {l : List α} (h : ∀ a ∈ l, ∀ b ∈ f a, anchor b = key a) (k : κ) :
    (l.flatMap f).filter (fun b => anchor b == k) = (l.filter fun a => key a == k).flatMap f := by
  induction l with
  | nil => rfl
  | cons a l ih =>
    have hrest := ih fun a' ha' => h a' (List.mem_cons_of_mem _ ha')
    have hhead := h a List.mem_cons_self
    rw [List.flatMap_cons, List.filter_append, hrest, List.filter_cons]
    by_cases hk : key a = k
    · have hall : (f a).filter (fun b => anchor b == k) = f a := by
        rw [List.filter_eq_self]
        intro b hb
        simp [hhead b hb, hk]
      rw [hall, if_pos (by simpa using hk), List.flatMap_cons]
    · have hnone : (f a).filter (fun b => anchor b == k) = [] := by
        rw [List.filter_eq_nil_iff]
        intro b hb
        simp [hhead b hb, hk]
      rw [hnone, if_neg (by simpa using hk), List.nil_append]

theorem filter_key_of_mem {κ α : Type} [DecidableEq κ] {l : List (κ × α)}
    (distinct : (l.map Prod.fst).Nodup) {x : κ × α} (hx : x ∈ l) :
    l.filter (fun y => y.1 == x.1) = [x] := by
  induction l with
  | nil => cases hx
  | cons y l ih =>
    obtain ⟨hnew, hrest⟩ := List.nodup_cons.mp distinct
    rcases List.mem_cons.mp hx with rfl | hx
    · have hnone : l.filter (fun y => y.1 == x.1) = [] := by
        rw [List.filter_eq_nil_iff]
        intro y hy heq
        rw [beq_iff_eq] at heq
        exact hnew (heq ▸ List.mem_map.mpr ⟨y, hy, rfl⟩)
      rw [List.filter_cons, if_pos (by simp), hnone]
    · have hne : y.1 ≠ x.1 := by
        intro heq
        exact hnew (heq ▸ List.mem_map.mpr ⟨x, hx, rfl⟩)
      rw [List.filter_cons, if_neg (by simpa using hne), ih hrest hx]

/-! ### Misplaced markers -/

namespace Batch

/-- The complaint about a marked field or method, at its owner. -/
def complaint? (e : Entry) : Option Diagnostic :=
  if isMisplaced (0, e.node) then e.parent.map misplaced else none

theorem misplacedMarkers_of_nodes {p : Program} (owned : p.Owned) :
    misplacedMarkers p = p.nodes.filterMap complaint? := by
  have hzip : p.nodes = p.nodes.zipIdx.map Prod.fst := by simp
  rw [misplacedMarkers_eq, Program.indexed, List.filterMap_map]
  conv_rhs => rw [hzip, List.filterMap_map]
  refine List.filterMap_congr ?_
  rintro ⟨e, i⟩ hi
  have he : p.nodes[i]? = some e := List.mk_mem_zipIdx_iff_getElem?.mp hi
  simp only [Function.comp_apply, complaint?]
  by_cases hmisplaced : isMisplaced (0, e.node) = true
  · have hkind : e.node.isClass = false := by
      simpa using (Bool.and_eq_true_iff.mp hmisplaced).1
    obtain ⟨owner, c, hparent, _, hanchor⟩ :=
      owned.enclosing (Program.node?_eq_some_iff.mpr ⟨e, he, rfl⟩) hkind
    have hentry : e.parent = some owner := by
      rw [← hparent, Program.parent?, he]
      rfl
    have hsame : isMisplaced (i, e.node) = true := hmisplaced
    rw [if_pos hmisplaced, if_pos hsame, hanchor, hentry]
    rfl
  · have hsame : ¬ isMisplaced (i, e.node) = true := hmisplaced
    rw [if_neg hmisplaced, if_neg hsame]

theorem anchor_of_misplaced {p : Program} (owned : p.Owned) {d : Diagnostic}
    (hd : d ∈ misplacedMarkers p) : ∃ c, p.class? d.anchor = some c := by
  rw [misplacedMarkers_eq] at hd
  obtain ⟨x, hx, hsome⟩ := List.mem_filterMap.mp hd
  split at hsome
  · next hmisplaced =>
    have hkind : x.2.isClass = false := by
      simpa using (Bool.and_eq_true_iff.mp hmisplaced).1
    obtain ⟨owner, c, _, hc, hanchor⟩ := owned.enclosing (node?_of_mem_indexed hx) hkind
    rw [hanchor] at hsome
    obtain rfl := Option.some.inj hsome
    exact ⟨c, hc⟩
  · cases hsome

end Batch

/-- Complaints about the members of a class. -/
def ClassDef.complaints (c : ClassDef) (host : NodeId) : List Diagnostic :=
  c.nodes.filterMap fun n => Batch.complaint? ⟨some host, n⟩

theorem ClassDef.anchor_of_mem_complaints {c : ClassDef} {host : NodeId} {d : Diagnostic}
    (hd : d ∈ c.complaints host) : d.anchor = host := by
  obtain ⟨n, _, hn⟩ := List.mem_filterMap.mp hd
  unfold Batch.complaint? at hn
  split at hn
  · obtain rfl := Option.some.inj hn
    rfl
  · cases hn

namespace Program

theorem complaints_attachAll (p : Program) (owner : NodeId) (ns : List Node) :
    (p.attachAll owner ns).nodes.filterMap Batch.complaint? =
      p.nodes.filterMap Batch.complaint? ++ ns.filterMap fun n =>
        Batch.complaint? ⟨some owner, n⟩ := by
  induction ns generalizing p with
  | nil => exact (List.append_nil _).symm
  | cons n ns ih =>
    have hattach : (p.attach owner n).1.nodes.filterMap Batch.complaint? =
        p.nodes.filterMap Batch.complaint? ++ (Batch.complaint? ⟨some owner, n⟩).toList := by
      simp only [attach, modifyClass]
      rw [filterMap_modify]
      · cases h : Batch.complaint? ⟨some owner, n⟩ <;> simp [h]
      · intro e
        obtain ⟨parent, node⟩ := e
        cases node <;> rfl
    rw [attachAll_cons, ih, hattach, List.append_assoc]
    cases h : Batch.complaint? ⟨some owner, n⟩ <;> simp [h]

theorem complaints_populate (p : Program) (c : ClassDef) :
    (p.populate c).1.nodes.filterMap Batch.complaint? =
      p.nodes.filterMap Batch.complaint? ++ c.complaints p.size := by
  have hclass : (p.addClass c.decl).1.nodes.filterMap Batch.complaint? =
      p.nodes.filterMap Batch.complaint? := by
    simp [addClass, Batch.complaint?, Batch.isMisplaced, Node.isClass]
  rw [populate_eq, complaints_attachAll, hclass]
  rfl

theorem misplacedMarkers_populateAll {p : Program} (owned : p.Owned) (cs : List ClassDef) :
    Batch.misplacedMarkers (p.populateAll cs).1 =
      Batch.misplacedMarkers p ++ (p.placements cs).flatMap fun x => x.2.complaints x.1 := by
  induction cs generalizing p with
  | nil => exact (List.append_nil _).symm
  | cons c cs ih =>
    have hrest : Batch.misplacedMarkers (p.populateAll (c :: cs)).1 =
        Batch.misplacedMarkers ((p.populate c).1.populateAll cs).1 := rfl
    rw [hrest, ih (owned.populate c), Batch.misplacedMarkers_of_nodes (owned.populate c),
      complaints_populate, ← Batch.misplacedMarkers_of_nodes owned, List.append_assoc,
      placements_cons,
      List.flatMap_cons]

/-! ### Places -/

theorem size_le_of_mem_placements {p : Program} {cs : List ClassDef} {x : NodeId × ClassDef}
    (h : x ∈ p.placements cs) : p.size ≤ (x.1 : Nat) := by
  induction cs generalizing p with
  | nil => cases h
  | cons c cs ih =>
    rw [placements_cons] at h
    rcases List.mem_cons.mp h with rfl | h
    · exact Nat.le_refl _
    · have hlater := ih h
      have hsize := size_populate p c
      omega

theorem exists_mem_placements (p : Program) {cs : List ClassDef} {c : ClassDef} (h : c ∈ cs) :
    ∃ host, (host, c) ∈ p.placements cs := by
  induction cs generalizing p with
  | nil => cases h
  | cons d cs ih =>
    rw [placements_cons]
    rcases List.mem_cons.mp h with rfl | h
    · exact ⟨p.size, List.mem_cons_self⟩
    · obtain ⟨host, hhost⟩ := ih (p.populate d).1 h
      exact ⟨host, List.mem_cons_of_mem _ hhost⟩

theorem nodup_placements (p : Program) (cs : List ClassDef) :
    ((p.placements cs).map Prod.fst).Nodup := by
  induction cs generalizing p with
  | nil => exact List.nodup_nil
  | cons c cs ih =>
    rw [placements_cons, List.map_cons, List.nodup_cons]
    refine ⟨?_, ih _⟩
    intro hmem
    obtain ⟨x, hx, hfst⟩ := List.mem_map.mp hmem
    have hlater := size_le_of_mem_placements hx
    have hsize := size_populate p c
    rw [show x.1 = p.size from hfst] at hlater
    omega

end Program

/-! ### One class in a run -/

namespace Batch

/-- What a run says at a node, in order. -/
def about (b : Batch) (id : NodeId) : List (Severity × String) :=
  (b.diagnostics.filter fun d => d.anchor == id).map fun d => (d.severity, d.message)

theorem anchor_of_mem_remarks {className : String} {id : NodeId} {v : Verdict} {d : Diagnostic}
    (hd : d ∈ v.remarks className id) : d.anchor = id := by
  cases v with
  | skipped => cases hd
  | injected m => cases hd
  | failed errors =>
    obtain ⟨e, _, rfl⟩ := List.mem_map.mp hd
    rfl
  | present origin =>
    cases origin with
    | user =>
      obtain rfl := List.mem_singleton.mp hd
      rfl
    | synthesized => cases hd

theorem nodup_verdicts (p : Program) : ((verdicts p (candidates p)).map Prod.fst).Nodup := by
  rw [map_fst_verdicts]
  exact (candidates_pairwise p).nodup

/-- A marked class whose members are all there is treated as if it were alone. -/
theorem mem_verdicts_of_live {p : Program} {id : NodeId} {c : ClassDecl} (hc : p.class? id = some c)
    (live : ∀ m ∈ c.members, (m : Nat) < p.size) {v : Verdict} :
    (id, v) ∈ verdicts p (candidates p) ↔ marker ∈ c.annotations ∧ v = verdict p p id := by
  have hmarked : id ∈ candidates p ↔ marker ∈ c.annotations := by
    rw [mem_candidates]
    constructor
    · rintro ⟨d, hd, hmarked⟩
      obtain rfl : c = d := Option.some.inj (hc.symm.trans hd)
      exact hmarked
    · intro hmarked
      exact ⟨c, hc, hmarked⟩
  have hvalue : ∀ w, (id, w) ∈ verdicts p (candidates p) → w = verdict p p id := fun w hw =>
    verdict_of_mem_verdicts (fun _ => class?_of_mem_candidates)
      (candidates_pairwise p).nodup hc live hw
  constructor
  · intro hv
    refine ⟨hmarked.mp ?_, hvalue v hv⟩
    rw [← map_fst_verdicts p (candidates p)]
    exact List.mem_map.mpr ⟨_, hv, rfl⟩
  · rintro ⟨hmark, rfl⟩
    have hid := hmarked.mpr hmark
    rw [← map_fst_verdicts p (candidates p)] at hid
    obtain ⟨⟨_, w⟩, hw, rfl⟩ := List.mem_map.mp hid
    rw [← hvalue w hw]
    exact hw

theorem mem_select_of_live {p : Program} {id : NodeId} {c : ClassDecl} (hc : p.class? id = some c)
    (live : ∀ m ∈ c.members, (m : Nat) < p.size) (kind : Verdict → Bool) :
    id ∈ Verdict.select kind (verdicts p (candidates p)) ↔
      marker ∈ c.annotations ∧ kind (verdict p p id) = true := by
  rw [Verdict.mem_select]
  constructor
  · rintro ⟨v, hv, hkind⟩
    obtain ⟨hmarked, rfl⟩ := (mem_verdicts_of_live hc live).mp hv
    exact ⟨hmarked, hkind⟩
  · rintro ⟨hmarked, hkind⟩
    exact ⟨_, (mem_verdicts_of_live hc live).mpr ⟨hmarked, rfl⟩, hkind⟩

/-- Remarks about a class are found at the class. -/
theorem filter_remarks_of_live {p : Program} {id : NodeId} {c : ClassDecl}
    (hc : p.class? id = some c) (live : ∀ m ∈ c.members, (m : Nat) < p.size) :
    ((verdicts p (candidates p)).flatMap fun x => x.2.remarks (className p x.1) x.1).filter
        (fun d => d.anchor == id) =
      if marker ∈ c.annotations then (verdict p p id).remarks c.name id else [] := by
  have hname : className p id = c.name := by simp [className, hc]
  rw [filter_flatMap_of_key Prod.fst fun x _ d hd => anchor_of_mem_remarks hd]
  by_cases hmarked : marker ∈ c.annotations
  · have hmem := (mem_verdicts_of_live hc live).mpr ⟨hmarked, rfl⟩
    rw [filter_key_of_mem (nodup_verdicts p) hmem, if_pos hmarked]
    simp [hname]
  · have hnone : (verdicts p (candidates p)).filter (fun x => x.1 == id) = [] := by
      rw [List.filter_eq_nil_iff]
      rintro ⟨k, v⟩ hx hk
      obtain rfl : k = id := by simpa using hk
      exact hmarked ((mem_verdicts_of_live hc live).mp hx).1
    rw [hnone, if_neg hmarked]
    rfl

end Batch

namespace Program

/-! ### A class of the list -/

/-- What is said about a class of a list: its misplaced markers, then the remarks about itself. -/
theorem about_run {p : Program} (owned : p.Owned) {cs : List ClassDef} {host : NodeId}
    {c : ClassDef} (h : (host, c) ∈ p.placements cs) :
    (Batch.run true (p.populateAll cs).1).about host =
      (c.complaints host ++
        if Batch.marker ∈ c.annotations then
          (Batch.verdict (p.populateAll cs).1 (p.populateAll cs).1 host).remarks c.name host
        else []).map fun d => (d.severity, d.message) := by
  have places := places_populateAll p cs h
  have hbase : (Batch.misplacedMarkers p).filter (fun d => d.anchor == host) = [] := by
    rw [List.filter_eq_nil_iff]
    intro d hd hanchor
    obtain ⟨b, hb⟩ := Batch.anchor_of_misplaced owned hd
    have hlt := lt_size_of_class? hb
    have hle := size_le_of_mem_placements h
    rw [beq_iff_eq] at hanchor
    rw [hanchor] at hlt
    omega
  have hmarkers : (Batch.misplacedMarkers (p.populateAll cs).1).filter (fun d => d.anchor == host) =
      c.complaints host := by
    rw [misplacedMarkers_populateAll owned, List.filter_append, hbase, List.nil_append,
      filter_flatMap_of_key Prod.fst fun x _ d hd => ClassDef.anchor_of_mem_complaints hd,
      filter_key_of_mem (nodup_placements p cs) h]
    exact List.append_nil _
  rw [Batch.about, (Batch.run_follows _).diagnostics, List.filter_append, hmarkers,
    Batch.filter_remarks_of_live places.decl fun m hm => places.members_lt hm]
  rfl

/-- All that is said is said about classes, old ones or those of the list. -/
theorem anchor_of_run {p : Program} (owned : p.Owned) {cs : List ClassDef} {d : Diagnostic}
    (hd : d ∈ (Batch.run true (p.populateAll cs).1).diagnostics) :
    (∃ c, p.class? d.anchor = some c) ∨ ∃ c, (d.anchor, c) ∈ p.placements cs := by
  have hclass : ∃ c, (p.populateAll cs).1.class? d.anchor = some c := by
    rw [(Batch.run_follows _).diagnostics] at hd
    rcases List.mem_append.mp hd with hd | hd
    · exact Batch.anchor_of_misplaced (owned.populateAll cs) hd
    · obtain ⟨⟨id, v⟩, hx, hremark⟩ := List.mem_flatMap.mp hd
      rw [Batch.anchor_of_mem_remarks hremark]
      exact (Batch.exists_of_mem_run hx).1
  obtain ⟨c, hc⟩ := hclass
  rcases class?_populateAll p cs hc with hold | hnew
  · exact Or.inl ⟨c, hold⟩
  · exact Or.inr hnew

theorem Places.laid {p : Program} {host : Nat} {c : ClassDef} (places : p.Places host c) :
    p.Laid host c.decl c.nodes [] :=
  ⟨by rw [List.append_nil]; exact places.decl, places.nodes⟩

/-- Fields and methods do not change when a program grows. -/
theorem Places.nodes_of_extends {p q : Program} (grown : p.Extends q) {host : Nat} {c : ClassDef}
    (places : p.Places host c) (k : Nat) (hk : k < c.nodes.length) :
    q.node? (host + 1 + k) = c.nodes[k]? := by
  have hnode := places.nodes k hk
  rw [List.getElem?_eq_getElem hk] at hnode ⊢
  obtain ⟨n', hn', hx⟩ := grown.node? hnode
  rw [hn']
  have hmem : c.nodes[k] ∈ c.nodes := List.getElem_mem hk
  generalize c.nodes[k] = n at hmem hx
  cases hx with
  | field f => rfl
  | method m => rfl
  | cls _ => cases asClass?_of_mem_nodes hmem

variable {p : Program} {host : Nat} {c : ClassDef}

theorem Places.laid_of_not_injected (places : p.Places host c)
    (h : host ∉ (Batch.run true p).report.injected) :
    (Batch.run true p).program.Laid host c.decl c.nodes [] := by
  have hosting := Batch.hosting_run p
  obtain ⟨ids, hids, _, hempty⟩ := hosting.class_ host _ places.decl
  rw [hempty h] at hids
  exact ⟨hids, places.nodes_of_extends hosting.grown⟩

theorem Places.laid_of_injected (places : p.Places host c)
    (h : host ∈ (Batch.run true p).report.injected) :
    ∃ m place, synthesize p (.ofProgram p) host = .ok m ∧ p.size ≤ (place : Nat) ∧
      (Batch.run true p).program.Laid host c.decl c.nodes [place] ∧
      (Batch.run true p).program.Laid place m.classDecl m.nodes [] := by
  obtain ⟨specs, hhosts, hspecs, _, hprogram⟩ := Batch.program_run p
  have distinct : (specs.map Prod.fst).Nodup := by
    rw [hhosts]
    exact (Batch.run_isolates p).ordered.1.nodup
  rw [← hhosts] at h
  obtain ⟨⟨_, m⟩, hs, rfl⟩ := List.mem_map.mp h
  obtain ⟨place, hg⟩ := Graft.exists_mem_layout p.size hs
  refine ⟨m, place, hspecs _ hs, Graft.start_le_place hg, ⟨?_, ?_⟩, ?_⟩
  · rw [hprogram, class?_withGrafts _ places.decl, Graft.placesOf_layout distinct hg]
  · exact places.nodes_of_extends (Batch.hosting_run p).grown
  · rw [hprogram]
    exact laid_withGrafts hg

end Program

end FieldAccess
