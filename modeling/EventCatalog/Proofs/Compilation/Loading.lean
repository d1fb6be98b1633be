import EventCatalog.Proofs.Compilation.Requests
import EventCatalog.Proofs.Syntax.Causes
import EventCatalog.Proofs.Syntax.Framed.Program
import EventCatalog.Proofs.Validation.References
import Mathlib.Data.List.Flatten

/-! # What compiling loads

Compiling with a resolver that answers by the document that is meant links the bounded closure of
the given documents and reports each import that fails once, where it was asked for
(`compile_loads`).  A call is told by the statement that it is made for, and the statements of the
linked documents are all different (`nodup_demands_gather`). -/

namespace EventCatalog

open Syntax Import

/-! ### No other complaint is one about a failed import -/

/-- The diagnostic says that an import could not be loaded. -/
def Diagnostic.isImportFailure (d : Diagnostic) : Bool := d.code == some .importFailure

theorem Diagnostic.not_isImportFailure {d : Diagnostic} {code : Diagnostic.Code}
    (h : d.code = some code) (hcode : code ≠ .importFailure) : d.isImportFailure = false := by
  rw [isImportFailure, h, beq_eq_false_iff_ne, Ne, Option.some.injEq]
  exact hcode

theorem Diagnostic.IsTextual.not_isImportFailure {d : Diagnostic} (h : d.IsTextual) :
    d.isImportFailure = false := by
  obtain ⟨code, hcode, htextual⟩ := h
  refine Diagnostic.not_isImportFailure hcode ?_
  rintro rfl
  cases htextual

namespace Validation

theorem not_isImportFailure_of_mem_definition {t : SymbolTable} {rules : ValidationRules}
    {document : Nat} {d : Definition} {e : Diagnostic} (he : e ∈ definition t rules document d) :
    e.isImportFailure = false := by
  obtain he | he := List.mem_append.mp he
  · unfold version at he
    split at he <;> split at he <;> simp only [List.mem_singleton, List.not_mem_nil] at he <;>
      (subst he; rfl)
  · obtain ⟨f, -, he⟩ := List.mem_flatMap.mp he
    unfold reference at he
    simp only at he
    split at he
    · obtain rfl := List.mem_singleton.mp he
      rfl
    · split at he <;> simp only [List.mem_singleton, List.not_mem_nil] at he <;>
        (subst he; rfl)

/-- Validation does not complain about failed imports. -/
theorem not_isImportFailure_of_mem_validate {generation document : Nat}
    {documents : List Document} {cycles : List Cycle} {rules : ValidationRules} {p : Program}
    {e : Diagnostic}
    (he : e ∈ validate (.link generation documents) cycles rules document p) :
    e.isImportFailure = false := by
  unfold validate at he
  rw [List.mem_append, List.mem_append, List.mem_append] at he
  obtain ((he | he) | he) | he := he
  · exact (code_of_mem_linkDiagnostics he).elim (Diagnostic.not_isImportFailure · (by decide))
      (Diagnostic.not_isImportFailure · (by decide))
  · obtain ⟨d, -, rfl⟩ := List.mem_map.mp he
    exact (code_duplicate _ d).elim (Diagnostic.not_isImportFailure · (by decide))
      (Diagnostic.not_isImportFailure · (by decide))
  · obtain ⟨d, -, he⟩ := List.mem_flatMap.mp he
    exact not_isImportFailure_of_mem_definition he
  · obtain ⟨c, -, rfl⟩ := List.mem_map.mp he
    exact Diagnostic.not_isImportFailure (code_cycle _ c) (by decide)

end Validation

theorem filter_isImportFailure_link (config : Config) {documents : List Document}
    (hread : ∀ d ∈ documents, ∃ path text, d = Document.read path text) :
    (Linked.link config 1 documents).diagnostics.filter (·.diagnostic.isImportFailure) = [] := by
  rw [List.filter_eq_nil_iff]
  intro e he
  rw [Bool.not_eq_true]
  obtain ⟨d, hd, he⟩ := List.mem_flatMap.mp (List.mem_mergeSort.mp he)
  unfold Linked.documentDiagnostics at he
  obtain ⟨x, hx, rfl⟩ := List.mem_map.mp he
  obtain hx | hx := List.mem_append.mp hx
  · obtain ⟨path, text, rfl⟩ := hread d hd
    exact (isTextual_of_mem_parse hx).not_isImportFailure
  · split at hx
    · exact Validation.not_isImportFailure_of_mem_validate hx
    · cases hx

/-- The complaints about failed imports are those of loading. -/
theorem isImportFailure_compile (config : Config) (resolve : ImportResolver)
    (sources : List (String × String)) :
    ((compile config (some resolve) sources).diagnostics.filter
      (·.diagnostic.isImportFailure)).Perm
        ((gather config (some resolve) sources).2.failures.filter
          (·.diagnostic.isImportFailure)) := by
  have hlink := filter_isImportFailure_link config
    fun d (hd : d ∈ (gather config (some resolve) sources).1) => read_of_mem_gather hd
  have hsort := (List.mergeSort_perm ((Linked.link config 1
    (gather config (some resolve) sources).1).diagnostics ++
      (gather config (some resolve) sources).2.failures) fun a b => (a.order b).isLE).filter
        (·.diagnostic.isImportFailure)
  rw [List.filter_append, hlink, List.nil_append] at hsort
  exact hsort

/-- The documents whose imports are asked for are those less than so many statements away. -/
theorem mem_asking_iff {answer : DocumentPath → ImportAnswer} {given : List Document}
    (rounds : Nat) (d : Document) :
    d ∈ asking (byTarget answer) { known := given.map Document.path } given rounds ↔
      ∃ visited, Chain given (byTarget answer) visited d ∧ visited.length < rounds := by
  cases rounds with
  | zero => simp [asking]
  | succ rounds =>
    simp only [Nat.lt_succ_iff]
    exact mem_load_iff rounds d

/-- The documents whose imports are asked for are linked. -/
theorem sublist_asking (resolve : ImportResolver) (given : List Document) (rounds : Nat) :
    (asking resolve { known := given.map Document.path } given rounds).Sublist
      (given ++ (load resolve rounds given).1) := by
  cases rounds with
  | zero => exact List.nil_sublist _
  | succ rounds => exact (prefix_loadFrom_succ resolve _ given rounds).sublist.append_left given

/-- Where documents have different paths and each has different statements, no call is another
one. -/
theorem nodup_demands {ds : List Document} (hpaths : (ds.map Document.path).Nodup)
    (himports : ∀ d ∈ ds, d.program.imports.Nodup) : (demands ds).Nodup := by
  rw [demands, List.nodup_flatMap]
  constructor
  · intro d hd
    exact (himports d hd).map fun i j h => (Call.mk.inj h).2
  · refine (List.pairwise_map.mp hpaths).imp ?_
    intro d e hne c hc hc'
    obtain ⟨i, -, rfl⟩ := List.mem_map.mp hc
    obtain ⟨j, -, hcall⟩ := List.mem_map.mp hc'
    exact hne (Call.mk.inj hcall).1.symm

/-- The import statements of the linked documents are all different. -/
theorem nodup_demands_gather (config : Config) (resolver : Option ImportResolver)
    (sources : List (String × String)) : (demands (gather config resolver sources).1).Nodup := by
  refine nodup_demands (nodup_paths_gather config resolver sources) fun d hd => ?_
  obtain ⟨path, text, rfl⟩ := read_of_mem_gather hd
  exact nodup_imports_parse text

section

variable {answer : DocumentPath → ImportAnswer} {given : List Document} {rounds : Nat}
  {asked : List Call}

theorem isImportFailure_of_failure? {resolve : ImportResolver} {c : Call} {e : FileDiagnostic}
    (h : c.failure? resolve = some e) : e.diagnostic.isImportFailure = true := by
  unfold Call.failure? at h
  split at h <;> cases h
  rfl

/-- The calls are made for statements of linked documents. -/
theorem subperm_demands_load {s' : Import.Loading}
    (h : Loading.Asks answer { known := given.map Document.path } s' (demands
      (asking (byTarget answer) { known := given.map Document.path } given rounds)) asked) :
    asked.Subperm (demands (given ++ (load (byTarget answer) rounds given).1)) :=
  (h.sublist.trans ((sublist_asking (byTarget answer) given rounds).flatMap _)).subperm

/-- The paths that have been asked for are those of all statements near enough that mean no given
document. -/
theorem mem_targets_iff {s' : Import.Loading}
    (h : Loading.Asks answer { known := given.map Document.path } s' (demands
      (asking (byTarget answer) { known := given.map Document.path } given rounds)) asked)
    (path : DocumentPath) :
    path ∈ asked.map Call.target ↔ path ∉ given.map Document.path ∧
      ∃ visited d, Chain given (byTarget answer) visited d ∧ visited.length < rounds ∧
        ∃ i ∈ d.program.imports, path = Call.target ⟨d.path, i⟩ := by
  constructor
  · intro hpath
    obtain ⟨⟨p, i⟩, hc, rfl⟩ := List.mem_map.mp hpath
    obtain ⟨d, hd, rfl, hi⟩ := mem_demands.mp (h.sublist.subset hc)
    obtain ⟨visited, hchain, hlength⟩ := (mem_asking_iff _ _).mp hd
    exact ⟨h.fresh _ hc, visited, d, hchain, hlength, i, hi, rfl⟩
  · rintro ⟨hnew, visited, d, hchain, hlength, i, hi, rfl⟩
    have hd := (mem_asking_iff rounds d).mpr ⟨visited, hchain, hlength⟩
    exact (h.complete ⟨d.path, i⟩ (mem_demands_of_import hd hi)).resolve_left hnew

end

/-- Compiling does not depend on answers that it has not called for. -/
theorem compile_congr (config : Config) {resolve resolve' : ImportResolver}
    (sources : List (String × String))
    (h : ∀ c ∈ (compile config (some resolve) sources).calls, AnswerAlike resolve resolve' c) :
    compile config (some resolve') sources = compile config (some resolve) sources := by
  have hload : load resolve' config.importRounds (readSources sources) =
      load resolve config.importRounds (readSources sources) := loadFrom_congr h
  have hgather : gather config (some resolve') sources = gather config (some resolve) sources :=
    congrArg (fun loaded : List Document × Import.Loading =>
      (sortDocuments (readSources sources ++ loaded.1), loaded.2)) hload
  simp only [compile, hgather]

/-- With a resolver that answers by the document that is meant, the linked documents are those that
chains of at most so many import statements lead to, one for each path.  The resolver is called for
statements of theirs, for each at most once: for a statement to every document that is less than so
many statements away and not given, and for none whose document it has given a text or a failure for
already.  Every failure is reported once, at the statement that it was called for.  What it would
answer to other calls does not matter. -/
theorem compile_loads (config : Config) (resolve : ImportResolver)
    (hresolve : AnswersByTarget resolve) (sources : List (String × String)) :
    let given := readSources sources
    let documents := (gather config (some resolve) sources).1
    let compiled := compile config (some resolve) sources
    (∀ d, d ∈ documents ↔
      ∃ visited, Chain given resolve visited d ∧ visited.length ≤ config.importRounds) ∧
    (documents.map Document.path).Nodup ∧
    compiled.calls.Nodup ∧
    (∀ c ∈ compiled.calls, ∃ d ∈ documents, c.path = d.path ∧ c.statement ∈ d.program.imports) ∧
    (∀ path, path ∈ compiled.calls.map Call.target ↔ path ∉ given.map Document.path ∧
      ∃ visited d, Chain given resolve visited d ∧ visited.length < config.importRounds ∧
        ∃ i ∈ d.program.imports, path = Call.target ⟨d.path, i⟩) ∧
    (compiled.calls.Pairwise fun c d =>
      resolve c.path c.specifier ≠ .unknown → d.target ≠ c.target) ∧
    (compiled.diagnostics.filter (·.diagnostic.isImportFailure)).Perm
      (compiled.calls.filterMap (Call.failure? resolve)) ∧
    ∀ resolve', (∀ c ∈ compiled.calls, AnswerAlike resolve resolve' c) →
      compile config (some resolve') sources = compiled := by
  obtain ⟨answer, rfl⟩ := exists_byTarget hresolve
  intro given documents compiled
  have hsort : documents.Perm (given ++ (load (byTarget answer) config.importRounds given).1) :=
    List.mergeSort_perm _ _
  obtain ⟨asked, hasked⟩ := asks_loadFrom answer config.importRounds
    { known := given.map Document.path } given
  have hcalls : compiled.calls = asked := hasked.calls
  obtain ⟨called, hcalled, hmade⟩ : asked.Subperm (demands documents) :=
    (subperm_demands_load hasked).trans (hsort.symm.flatMap_right _).subperm
  have hfailures : (gather config (some (byTarget answer)) sources).2.failures.filter
      (·.diagnostic.isImportFailure) = asked.filterMap (Call.failure? (byTarget answer)) := by
    refine (congrArg _ hasked.failures).trans (List.filter_eq_self.mpr fun e he => ?_)
    obtain ⟨c, -, hc⟩ := List.mem_filterMap.mp he
    exact isImportFailure_of_failure? hc
  rw [hcalls]
  refine ⟨fun d => ?_, nodup_paths_gather _ _ _, ?_, fun c hc => ?_, mem_targets_iff hasked,
    hasked.once, ?_, ?_⟩
  · rw [hsort.mem_iff, mem_load_iff]
  · exact hcalled.nodup (hmade.nodup (nodup_demands_gather _ _ _))
  · exact mem_demands.mp (hmade.subset (hcalled.mem_iff.mpr hc))
  · exact hfailures ▸ isImportFailure_compile config (byTarget answer) sources
  · exact fun resolve' h => compile_congr config sources (hcalls ▸ h)

/-- Of two statements that mean one document with a text only the first one is called for, and of
two that mean one that is not known both are.  A document that fails is reported at the statement
that it was called for. -/
theorem compile_loads_twins :
    let answer : DocumentPath → ImportAnswer := fun path =>
      if path = .ofString "b.ec" then .text "event B\n"
      else if path = .ofString "broken.ec" then .failure "no permission"
      else .unknown
    let compiled := compile {} (some (byTarget answer)) [("a.ec",
      "import { B } from \"b.ec\"\nimport { C } from \"./b.ec\"\n" ++
      "import { D } from \"gone.ec\"\nimport { E } from \"./gone.ec\"\n" ++
      "import { F } from \"broken.ec\"\n")]
    AnswersByTarget (byTarget answer) ∧
      compiled.calls.map Call.specifier = ["b.ec", "gone.ec", "./gone.ec", "broken.ec"] ∧
      compiled.calls.Nodup ∧
      (compiled.diagnostics.filter (·.diagnostic.isImportFailure)).Perm
        (compiled.calls.filterMap (Call.failure? (byTarget answer))) := by
  intro answer compiled
  have hresolve : AnswersByTarget (byTarget answer) := fun p q s t h => congrArg answer h
  obtain ⟨-, -, hnodup, -, -, -, hfailures, -⟩ := compile_loads {} _ hresolve [("a.ec", _)]
  exact ⟨hresolve, by decide +kernel, hnodup, hfailures⟩

end EventCatalog
