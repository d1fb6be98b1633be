import EventCatalog.Proofs.Printing.Statements
import Mathlib.Data.List.Sort

/-! # What the statements of a definition add up to

Adding the statements of a definition one by one gives the definition again
(`Definition.foldl_statements`): its lists, item by item, and its attributes, whose lists grow
with each statement.  Interleaving lists does not matter for this, because statements of different
lists add to different fields (`foldl_interleave`), and it writes the definitions inside a
definition in their order (`Definition.Writable.inlined_statements`). -/

namespace EventCatalog

namespace Syntax

open Token

section folds

variable {α β σ : Type} {f : σ → β → σ} {m : α → β}

/-- Items that are added at the end of a list one by one make up the list. -/
theorem foldl_map_put {s t : σ} {l : List α} (put : List α → σ) (hs : put [] = s)
    (h : ∀ l a, f (put l) (m a) = put (l ++ [a])) (ht : put l = t) :
    (l.map m).foldl f s = t := by
  subst hs ht
  have hfold : ∀ before, (l.map m).foldl f (put before) = put (before ++ l) := by
    induction l with
    | nil => exact fun before => by rw [List.append_nil]; rfl
    | cons a l ih =>
      intro before
      rw [List.map_cons, List.foldl_cons, h, ih, List.append_assoc]
      rfl
  exact hfold []

theorem foldl_map_append {s t : σ} {l : List α} {others : List β} (put : List α → σ)
    (hs : put [] = s) (h : ∀ l a, f (put l) (m a) = put (l ++ [a]))
    (hothers : others.foldl f (put l) = t) : (l.map m ++ others).foldl f s = t := by
  rw [List.foldl_append, foldl_map_put put hs h rfl, hothers]

theorem foldl_comm {xs : List β} {y : β}
    (h : ∀ x ∈ xs, ∀ s, f (f s x) y = f (f s y) x) (s : σ) :
    xs.foldl f (f s y) = f (xs.foldl f s) y := by
  induction xs generalizing s with
  | nil => rfl
  | cons x xs ih =>
    rw [List.foldl_cons, List.foldl_cons, ← h x List.mem_cons_self,
      ih fun z hz => h z (List.mem_cons_of_mem x hz)]

/-- Merging two lists of items that commute makes no difference. -/
theorem foldl_merge {le : β → β → Bool} {xs ys : List β}
    (h : ∀ x ∈ xs, ∀ y ∈ ys, ∀ s, f (f s x) y = f (f s y) x) (s : σ) :
    (xs.merge ys le).foldl f s = (xs ++ ys).foldl f s := by
  fun_induction List.merge xs ys le generalizing s with
  | case1 ys => rfl
  | case2 xs => rw [List.append_nil]
  | case3 x xs y ys hle ih =>
    rw [List.foldl_cons, ih fun z hz => h z (List.mem_cons_of_mem x hz)]
    rfl
  | case4 x xs y ys hle ih =>
    have hy := foldl_comm (s := s) fun z hz => h z hz y List.mem_cons_self
    rw [List.foldl_cons, ih fun z hz w hw => h z hz w (List.mem_cons_of_mem y hw),
      List.foldl_append, List.foldl_append, hy]
    rfl

end folds

/-! ### Interleaving -/

/-- Adding interleaved statements is adding the lists one after another, if the statements of
different lists commute. -/
theorem foldl_interleave {groups : List (List Statement)}
    (h : groups.Pairwise fun xs ys => ∀ x ∈ xs, ∀ y ∈ ys, ∀ b : Body,
      (b.add x).add y = (b.add y).add x) (b : Body) :
    (interleave groups).foldl (fun b s => b.add s) b =
      groups.flatten.foldl (fun b s => b.add s) b := by
  induction groups generalizing b with
  | nil => rfl
  | cons group groups ih =>
    obtain ⟨hgroup, hgroups⟩ := List.pairwise_cons.mp h
    have hcomm : ∀ x ∈ group, ∀ y ∈ interleave groups, ∀ b : Body,
        (b.add x).add y = (b.add y).add x := by
      intro x hx y hy
      obtain ⟨ys, hys, hy⟩ := List.mem_flatten.mp ((interleave_perm groups).mem_iff.mp hy)
      exact hgroup ys hys x hx y hy
    calc (interleave (group :: groups)).foldl (fun b s => b.add s) b
        = (group ++ interleave groups).foldl (fun b s => b.add s) b :=
          foldl_merge (f := fun b s => Body.add s b) hcomm b
      _ = (group :: groups).flatten.foldl (fun b s => b.add s) b := by
        rw [List.flatten_cons, List.foldl_append, List.foldl_append, ih hgroups]

/-- The identifiers of interleaved inline definitions are merged. -/
theorem filterMap_merge (xs ys : List Statement) :
    (xs.merge ys Statement.mayPrecede).filterMap (·.inlined?) =
      (xs.filterMap (·.inlined?)).merge (ys.filterMap (·.inlined?)) (fun m n => m ≤ n) := by
  fun_induction List.merge xs ys Statement.mayPrecede with
  | case1 ys => simp
  | case2 xs => simp
  | case3 x xs y ys hle ih =>
    cases hx : x.inlined? with
    | none => rw [List.filterMap_cons_none hx, List.filterMap_cons_none hx, ih]
    | some m =>
      cases hy : y.inlined? with
      | none => simp [Statement.mayPrecede, hx, hy] at hle
      | some n =>
        have hmn : m ≤ n := by simpa [Statement.mayPrecede, hx, hy] using hle
        rw [List.filterMap_cons_some hx, List.filterMap_cons_some hx, ih,
          List.filterMap_cons_some hy, List.cons_merge_cons_pos _ _ _ (by simpa using hmn)]
  | case4 x xs y ys hle ih =>
    cases hx : x.inlined? with
    | none => simp [Statement.mayPrecede, hx] at hle
    | some m =>
      cases hy : y.inlined? with
      | none => rw [List.filterMap_cons_none hy, List.filterMap_cons_none hy, ih]
      | some n =>
        have hmn : ¬ m ≤ n := by simpa [Statement.mayPrecede, hx, hy] using hle
        rw [List.filterMap_cons_some hy, List.filterMap_cons_some hy, ih,
          List.filterMap_cons_some hx, List.cons_merge_cons_neg _ _ _ (by simpa using hmn)]

/-- If the identifiers increase in each list, they increase in the lists interleaved. -/
theorem pairwise_interleave {groups : List (List Statement)}
    (h : ∀ group ∈ groups, (group.filterMap (·.inlined?)).Pairwise (· ≤ ·)) :
    ((interleave groups).filterMap (·.inlined?)).Pairwise (· ≤ ·) := by
  induction groups with
  | nil => exact .nil
  | cons group groups ih =>
    have hgroup := h group List.mem_cons_self
    have hgroups := ih fun g hg => h g (List.mem_cons_of_mem group hg)
    have hmerge : ((group.filterMap (·.inlined?)).merge
        ((interleave groups).filterMap (·.inlined?)) fun m n => m ≤ n).Pairwise
        fun m n => decide (m ≤ n) = true :=
      List.pairwise_merge (by simpa using fun a b c => Nat.le_trans) (by simpa using Nat.le_total)
        _ _ (by simpa using hgroup) (by simpa using hgroups)
    rw [← filterMap_merge] at hmerge
    simp only [decide_eq_true_eq] at hmerge
    exact hmerge

/-! ### Bodies -/

namespace Statement

/-- Whether a statement adds to the body of a definition. -/
def addsToBody : Statement → Bool
  | note _ | version _ | .attribute _ _ => false
  | _ => true

theorem add_of_addsToBody {s : Statement} (h : s.addsToBody = true) (d : Definition) :
    d.add s = { d with body := d.body.add s } := by
  cases s <;> first | rfl | cases h

/-- Whether a statement is a trigger. -/
def isTrigger : Statement → Bool
  | trigger _ => true
  | _ => false

theorem kind_of_isTrigger {k : Kind} {s : Statement} (hfits : s.fits k = true)
    (h : s.isTrigger = true) : k = .flow := by
  cases s with
  | trigger t => simpa [fits] using hfits
  | _ => cases h

/-- Annotations, versions and attributes may stand in every block and anywhere. -/
theorem of_not_addsToBody {s : Statement} (h : s.addsToBody = false) (k : Kind) :
    s.fits k = true ∧ s.inlined? = none ∧ s.isTrigger = false := by
  cases s <;> first | exact ⟨rfl, rfl, rfl⟩ | cases h

@[simp] theorem addsToBody_relabel (f : Relabelling) (s : Statement) :
    (s.relabel f).addsToBody = s.addsToBody := by
  cases s <;> rfl

end Statement

namespace Body

/-- Members of different sections go to different lists. -/
theorem add_member_comm {sort sort' : Section} (h : sort ≠ sort') {s s' : Span}
    {r r' : Reference} {n n' : Option Nat} (b : Body) :
    (b.add (.member sort s r n)).add (.member sort' s' r' n') =
      (b.add (.member sort' s' r' n')).add (.member sort s r n) := by
  cases b with
  | domain b => cases sort <;> cases sort' <;> first | exact absurd rfl h | rfl
  | _ => rfl

theorem add_member_message_comm {sort : Section} {s : Span} {r : Reference} {n : Option Nat}
    {direction : Direction} {m : Message} (b : Body) :
    (b.add (.member sort s r n)).add (.message direction m) =
      (b.add (.message direction m)).add (.member sort s r n) := by
  cases b with
  | domain b => cases sort <;> cases direction <;> rfl
  | _ => cases direction <;> rfl

/-- Messages that are sent and messages that are received go to different lists. -/
theorem add_message_comm {m m' : Message} (b : Body) :
    (b.add (.message .outgoing m)).add (.message .incoming m') =
      (b.add (.message .incoming m')).add (.message .outgoing m) := by
  cases b <;> rfl

/-- Statements of different lists may be added in any order. -/
theorem groups_comm (b : Body) :
    b.groups.Pairwise fun xs ys => ∀ x ∈ xs, ∀ y ∈ ys, ∀ b : Body,
      (b.add x).add y = (b.add y).add x := by
  have hmessages (sends receives : List Message) :
      [sends.map (.message .outgoing), receives.map (.message .incoming)].Pairwise
        fun xs ys => ∀ x ∈ xs, ∀ y ∈ ys, ∀ b : Body, (b.add x).add y = (b.add y).add x := by
    refine List.pairwise_pair.mpr fun x hx y hy b => ?_
    obtain ⟨m, -, rfl⟩ := List.mem_map.mp hx
    obtain ⟨m', -, rfl⟩ := List.mem_map.mp hy
    exact add_message_comm b
  cases b with
  | domain b =>
    have hsections : Section.all.Pairwise (· ≠ ·) := by decide
    refine List.pairwise_append.mpr ⟨?_, hmessages _ _, ?_⟩
    · refine List.pairwise_map.mpr (hsections.imp fun hne x hx y hy b => ?_)
      obtain ⟨m, -, rfl⟩ := List.mem_map.mp hx
      obtain ⟨m', -, rfl⟩ := List.mem_map.mp hy
      exact add_member_comm hne b
    · intro xs hxs ys hys x hx y hy b
      obtain ⟨sort, -, rfl⟩ := List.mem_map.mp hxs
      obtain ⟨m, -, rfl⟩ := List.mem_map.mp hx
      simp only [List.mem_cons, List.not_mem_nil, or_false] at hys
      obtain rfl | rfl := hys <;> obtain ⟨m', -, rfl⟩ := List.mem_map.mp hy <;>
        exact add_member_message_comm b
  | service b => exact hmessages _ _
  | _ => exact .nil

/-- A body is what its statements add up to. -/
theorem foldl_statements (b : Body) :
    b.statements.foldl (fun b s => b.add s) (empty b.kind) = b := by
  rw [statements, List.foldl_append, foldl_interleave b.groups_comm, ← List.foldl_append]
  cases b with
  | event | command | query | diagram => rfl
  | domain b =>
    simp only [groups, others, Section.all, DomainBody.members, List.map_cons, List.map_nil,
      List.flatten_append, List.flatten_cons, List.flatten_nil, List.append_assoc, List.append_nil]
    refine foldl_map_append (fun l => domain { services := l }) rfl (fun _ _ => rfl) ?_
    refine foldl_map_append (fun l => domain { services := b.services, subdomains := l }) rfl
      (fun _ _ => rfl) ?_
    refine foldl_map_append (fun l => domain { b with
      entities := l, containers := [], channels := [], flows := [], dataProducts := [],
      sends := [], receives := [], owns := [] }) rfl (fun _ _ => rfl) ?_
    refine foldl_map_append (fun l => domain { b with
      containers := l, channels := [], flows := [], dataProducts := [], sends := [],
      receives := [], owns := [] }) rfl (fun _ _ => rfl) ?_
    refine foldl_map_append (fun l => domain { b with
      channels := l, flows := [], dataProducts := [], sends := [], receives := [], owns := [] })
      rfl (fun _ _ => rfl) ?_
    refine foldl_map_append (fun l => domain { b with
      flows := l, dataProducts := [], sends := [], receives := [], owns := [] }) rfl
      (fun _ _ => rfl) ?_
    refine foldl_map_append (fun l => domain { b with
      dataProducts := l, sends := [], receives := [], owns := [] }) rfl (fun _ _ => rfl) ?_
    refine foldl_map_append (fun l => domain { b with sends := l, receives := [], owns := [] }) rfl
      (fun _ _ => rfl) ?_
    refine foldl_map_append (fun l => domain { b with receives := l, owns := [] }) rfl
      (fun _ _ => rfl) ?_
    exact foldl_map_put (fun l => domain { b with owns := l }) rfl (fun _ _ => rfl) rfl
  | service b =>
    simp only [groups, others, List.flatten_cons, List.flatten_nil, List.append_assoc,
      List.append_nil]
    refine foldl_map_append (fun l => service { sends := l }) rfl (fun _ _ => rfl) ?_
    refine foldl_map_append (fun l => service { sends := b.sends, receives := l }) rfl
      (fun _ _ => rfl) ?_
    refine foldl_map_append (fun l => service { b with
      writesTo := l, readsFrom := [], readsWrites := [], entities := [], owns := [] }) rfl
      (fun _ _ => rfl) ?_
    refine foldl_map_append (fun l => service { b with
      readsFrom := l, readsWrites := [], entities := [], owns := [] }) rfl (fun _ _ => rfl) ?_
    refine foldl_map_append (fun l => service { b with
      readsWrites := l, entities := [], owns := [] }) rfl (fun _ _ => rfl) ?_
    refine foldl_map_append (fun l => service { b with entities := l, owns := [] }) rfl
      (fun _ _ => rfl) ?_
    exact foldl_map_put (fun l => service { b with owns := l }) rfl (fun _ _ => rfl) rfl
  | channel b =>
    refine foldl_map_append (fun l => channel { routes := l }) rfl (fun _ _ => rfl) ?_
    exact foldl_map_put (fun l => channel { b with parameters := l }) rfl (fun _ _ => rfl) rfl
  | entity => exact foldl_map_put entity rfl (fun _ _ => rfl) rfl
  | container b =>
    refine foldl_map_append (fun l => container { readsFrom := l }) rfl (fun _ _ => rfl) ?_
    exact foldl_map_put (fun l => container { b with writesTo := l }) rfl (fun _ _ => rfl) rfl
  | flow b =>
    refine foldl_map_append (fun l => flow { chains := l }) rfl (fun _ _ => rfl) ?_
    exact foldl_map_put (fun l => flow { b with triggers := l }) rfl (fun _ _ => rfl) rfl
  | actor => exact foldl_map_put actor rfl (fun _ _ => rfl) rfl
  | externalSystem => exact foldl_map_put externalSystem rfl (fun _ _ => rfl) rfl
  | user b =>
    refine foldl_map_append (fun l => user { teams := l }) rfl (fun _ _ => rfl) ?_
    exact foldl_map_put (fun l => user { b with owns := l }) rfl (fun _ _ => rfl) rfl
  | team b =>
    refine foldl_map_append (fun l => team { members := l }) rfl (fun _ _ => rfl) ?_
    exact foldl_map_put (fun l => team { b with owns := l }) rfl (fun _ _ => rfl) rfl
  | dataProduct b =>
    refine foldl_map_append (fun l => dataProduct { inputs := l }) rfl (fun _ _ => rfl) ?_
    exact foldl_map_put (fun l => dataProduct { b with outputs := l }) rfl (fun _ _ => rfl) rfl

/-- The same without places. -/
theorem foldl_relabel_statements (b : Body) :
    (b.statements.map (·.relabel .forgetSpans)).foldl (fun b s => b.add s) (empty b.kind) =
      b.relabel .forgetSpans := by
  have hrelabel : b.statements.foldl (fun b s => b.add (s.relabel .forgetSpans))
      ((empty b.kind).relabel .forgetSpans) =
      (b.statements.foldl (fun b s => b.add s) (empty b.kind)).relabel .forgetSpans :=
    List.foldl_hom (Body.relabel .forgetSpans) fun b s => (relabel_add s b).symm
  rw [relabel_empty, foldl_statements] at hrelabel
  rw [List.foldl_map, hrelabel]

/-- Only members and messages may have definitions in their place. -/
theorem mem_groups {b : Body} {s : Statement} (h : s ∈ b.groups.flatten) :
    (∃ sort target inlined, b.kind = .domain ∧ s = .member sort ⟨0, 0⟩ target inlined) ∨
      ∃ direction m, (b.kind = .domain ∨ b.kind = .service) ∧ s = .message direction m := by
  have hmessages {sends receives : List Message}
      (h : s ∈ [sends.map (.message .outgoing), receives.map (.message .incoming)].flatten) :
      ∃ direction m, s = .message direction m := by
    simp only [List.flatten_cons, List.flatten_nil, List.append_nil, List.mem_append,
      List.mem_map] at h
    obtain ⟨m, -, rfl⟩ | ⟨m, -, rfl⟩ := h <;> exact ⟨_, m, rfl⟩
  cases b with
  | domain b =>
    rw [groups, List.flatten_append] at h
    obtain h | h := List.mem_append.mp h
    · obtain ⟨group, hgroup, h⟩ := List.mem_flatten.mp h
      obtain ⟨sort, -, rfl⟩ := List.mem_map.mp hgroup
      obtain ⟨m, -, rfl⟩ := List.mem_map.mp h
      exact .inl ⟨sort, m.target, m.inlined, rfl, rfl⟩
    · obtain ⟨direction, m, rfl⟩ := hmessages h
      exact .inr ⟨direction, m, .inl rfl, rfl⟩
  | service b =>
    obtain ⟨direction, m, rfl⟩ := hmessages h
    exact .inr ⟨direction, m, .inr rfl, rfl⟩
  | _ => cases h

/-- The other statements have no definitions in their place. -/
theorem mem_others {b : Body} : ∀ s ∈ b.others,
    s.fits b.kind = true ∧ s.addsToBody = true ∧ s.inlined? = none := by
  cases b <;> simp only [others, List.forall_mem_append, List.forall_mem_map] <;>
    first | exact List.forall_mem_nil _ | (and_intros <;> exact fun _ _ => ⟨rfl, rfl, rfl⟩)

/-- The statements of a body add to the body, and blocks of its kind have such statements. -/
theorem fits_of_mem_statements {b : Body} {s : Statement} (h : s ∈ b.statements) :
    s.fits b.kind = true ∧ s.addsToBody = true := by
  obtain h | h := List.mem_append.mp h
  · obtain ⟨sort, target, inlined, hkind, rfl⟩ | ⟨direction, m, hkind, rfl⟩ :=
      mem_groups ((interleave_perm _).mem_iff.mp h)
    · exact ⟨by simpa [Statement.fits] using hkind, rfl⟩
    · exact ⟨by simpa [Statement.fits] using hkind, rfl⟩
  · exact ⟨(mem_others s h).1, (mem_others s h).2.1⟩

/-- Triggers come last. -/
theorem pairwise_isTrigger (b : Body) :
    b.statements.Pairwise fun s t => s.isTrigger = true → t.isTrigger = true := by
  by_cases hkind : b.kind = .flow
  · cases b with
    | flow b =>
      refine List.pairwise_append.mpr ⟨List.Pairwise.nil, List.pairwise_append.mpr ⟨?_, ?_, ?_⟩,
        fun _ => nofun⟩
      · exact List.pairwise_map.mpr (List.pairwise_of_forall fun _ _ => nofun)
      · exact List.pairwise_map.mpr (List.pairwise_of_forall fun _ _ _ => rfl)
      · intro s hs t ht
        obtain ⟨trigger, -, rfl⟩ := List.mem_map.mp ht
        exact fun _ => rfl
    | _ => cases hkind
  · refine List.pairwise_of_forall_mem_list fun s hs t _ htrigger => ?_
    exact absurd (Statement.kind_of_isTrigger (fits_of_mem_statements hs).1 htrigger) hkind

end Body

/-! ### Attributes -/

namespace Definition

variable {d : Definition} {key : String} {v : Located AttributeValue}

/-- The first statement of an attribute adds an entry at the end. -/
theorem add_attribute (h : key ∉ d.attributes.map (·.1)) :
    d.add (.attribute key v) = { d with attributes := d.attributes ++ [(key, v)] } := by
  simp only [add, Entries.get?_of_not_mem h, Entries.put_of_not_mem h]

/-- The statements of an attribute add up to the attribute. -/
theorem foldl_attributeStatements (hkey : key ∉ d.attributes.map (·.1))
    (hlist : v.value ≠ .list []) :
    ((attributeStatements (key, v)).map (·.relabel .forgetSpans)).foldl add d =
      { d with attributes := d.attributes ++ [(key, v.relabel .forgetSpans)] } := by
  obtain ⟨value, span⟩ := v
  cases value with
  | text s => exact add_attribute hkey
  | flag b => exact add_attribute hkey
  | list items =>
    cases items with
    | nil => exact absurd rfl hlist
    | cons item items =>
      have hstatements : attributeStatements (key, ⟨.list (item :: items), span⟩) =
          Statement.attribute key ⟨.list [item], span⟩ ::
            items.map fun item => Statement.attribute key ⟨.list [item], span⟩ := rfl
      rw [hstatements, List.map_cons, List.foldl_cons, List.map_map]
      let gathered (l : List String) : Located AttributeValue := ⟨.list (item :: l), ⟨0, 0⟩⟩
      refine foldl_map_put (fun l => { d with attributes := d.attributes ++ [(key, gathered l)] })
        (add_attribute hkey).symm (fun l a => ?_) rfl
      simp only [add, Function.comp_apply, Statement.relabel, Entries.get?_append_self hkey,
        Entries.put_append_self hkey]
      rfl

theorem foldl_attributes {entries : Entries (Located AttributeValue)}
    (hkeys : ((d.attributes ++ entries).map (·.1)).Nodup)
    (hlists : ∀ e ∈ entries, e.2.value ≠ .list []) :
    ((entries.flatMap attributeStatements).map (·.relabel .forgetSpans)).foldl add d =
      { d with
        attributes := d.attributes ++ entries.map fun (k, v) => (k, v.relabel .forgetSpans) } := by
  induction entries generalizing d with
  | nil =>
    cases d
    simp
  | cons e entries ih =>
    obtain ⟨key, v⟩ := e
    have hkey : key ∉ d.attributes.map (·.1) := by
      rw [List.map_append] at hkeys
      exact fun hmem => (List.nodup_append.mp hkeys).2.2 _ hmem _ List.mem_cons_self rfl
    rw [List.flatMap_cons, List.map_append, List.foldl_append,
      foldl_attributeStatements hkey (hlists _ List.mem_cons_self), ih]
    · simp
    · simpa using hkeys
    · exact fun e he => hlists e (List.mem_cons_of_mem _ he)

/-! ### Definitions -/

/-- The definition with these definitions inside it. -/
def withNested (d : Definition) (ds : List Definition) : Definition := { d with nested := ds }

@[simp] theorem withNested_nested (d : Definition) : d.withNested d.nested = d := by
  cases d
  rfl

theorem add_withNested (d : Definition) (ds : List Definition) (s : Statement) :
    (d.withNested ds).add s = (d.add s).withNested ds := by
  cases s <;> rfl

theorem foldl_add_withNested (d : Definition) (ds : List Definition) (ss : List Statement) :
    ss.foldl add (d.withNested ds) = (ss.foldl add d).withNested ds := by
  induction ss generalizing d with
  | nil => rfl
  | cons s ss ih => rw [List.foldl_cons, add_withNested, ih, List.foldl_cons]

/-- Statements that add to the body leave the rest. -/
theorem foldl_add_body {ss : List Statement} (h : ∀ s ∈ ss, s.addsToBody = true)
    (d : Definition) :
    ss.foldl add d = { d with body := ss.foldl (fun b s => b.add s) d.body } := by
  induction ss generalizing d with
  | nil =>
    cases d
    rfl
  | cons s ss ih =>
    rw [List.foldl_cons, Statement.add_of_addsToBody (h s List.mem_cons_self),
      ih fun t ht => h t (List.mem_cons_of_mem s ht)]
    rfl

/-- The definition without places when nothing but its kind and its name has been read. -/
def begun (d : Definition) : Definition :=
  start d.id d.kind ⟨0, 0⟩ (d.name.relabel .forgetSpans) none

/-- The statements of a definition add up to the definition, those inside it aside. -/
theorem foldl_statements {d : Definition} (hkeys : (d.attributes.map (·.1)).Nodup)
    (hlists : ∀ e ∈ d.attributes, e.2.value ≠ .list []) :
    (d.statements.map (·.relabel .forgetSpans)).foldl add d.begun =
      (d.relabel .forgetSpans).withNested [] := by
  obtain ⟨id, keyword, name, version, attributes, annotations, body, nested, span⟩ := d
  let first : Definition := start id body.kind ⟨0, 0⟩ (name.relabel .forgetSpans) none
  have hversion : ((version.toList.map Statement.version).map (·.relabel .forgetSpans)).foldl add
      first = { first with version := version.map (·.relabel .forgetSpans) } := by
    cases version <;> rfl
  have hannotations (d : Definition) (hd : d.annotations = []) :
      ((annotations.map Statement.note).map (·.relabel .forgetSpans)).foldl add d =
        { d with annotations := annotations.map (·.relabel .forgetSpans) } := by
    rw [List.map_map]
    refine foldl_map_put (fun l : List Note =>
      { d with annotations := l.map (Note.relabel .forgetSpans) }) ?_ (fun l a => ?_) rfl
    · cases d
      cases hd
      rfl
    · rw [List.map_append]
      rfl
  have hbody : ∀ s ∈ body.statements.map (·.relabel .forgetSpans), s.addsToBody = true := by
    intro s hs
    obtain ⟨t, ht, rfl⟩ := List.mem_map.mp hs
    rw [Statement.addsToBody_relabel]
    exact (Body.fits_of_mem_statements ht).2
  simp only [statements, preamble, List.map_append, List.foldl_append, relabel_mk]
  change List.foldl _ (List.foldl _ (List.foldl _ (List.foldl _ first _) _) _) _ = _
  rw [hversion, hannotations _ rfl, foldl_attributes (by simpa [first, start] using hkeys) hlists,
    foldl_add_body hbody]
  simp only [first, start, Body.foldl_relabel_statements, List.nil_append]
  rfl

/-- What is written before the body does not add to it. -/
theorem not_addsToBody_of_mem_preamble {d : Definition} :
    ∀ s ∈ d.preamble, s.addsToBody = false := by
  intro s h
  simp only [preamble, List.mem_append, List.mem_map, List.mem_flatMap] at h
  obtain (⟨v, -, rfl⟩ | ⟨a, -, rfl⟩) | ⟨⟨key, value, span⟩, -, h⟩ := h
  · rfl
  · rfl
  · cases value with
    | list items =>
      obtain ⟨item, -, rfl⟩ := List.mem_map.mp h
      rfl
    | _ =>
      obtain rfl := List.mem_singleton.mp h
      rfl

/-- Blocks of the kind have the statements of a definition. -/
theorem fits_of_mem_statements {d : Definition} {s : Statement} (h : s ∈ d.statements) :
    s.fits d.kind = true := by
  obtain h | h := List.mem_append.mp h
  · exact (Statement.of_not_addsToBody (not_addsToBody_of_mem_preamble s h) d.kind).1
  · exact (Body.fits_of_mem_statements h).1

/-- Behind a trigger there are only triggers. -/
theorem pairwise_isTrigger (d : Definition) :
    d.statements.Pairwise fun s t => s.isTrigger = true → t.isTrigger = true := by
  have hpreamble : ∀ s ∈ d.preamble, ¬ s.isTrigger = true := fun s hs => by
    simp [(Statement.of_not_addsToBody (not_addsToBody_of_mem_preamble s hs) d.kind).2.2]
  exact List.pairwise_append.mpr
    ⟨List.pairwise_of_forall_mem_list fun s hs _ _ h => absurd h (hpreamble s hs),
      d.body.pairwise_isTrigger, fun s hs _ _ h => absurd h (hpreamble s hs)⟩

/-- Statements with a definition in their place are in the lists where there may be some. -/
theorem mem_groups_of_inlined? {d : Definition} {s : Statement} {n : Nat} (h : s ∈ d.statements)
    (hs : s.inlined? = some n) : s ∈ d.body.groups.flatten := by
  obtain h | h := List.mem_append.mp h
  · rw [(Statement.of_not_addsToBody (not_addsToBody_of_mem_preamble s h) d.kind).2.1] at hs
    cases hs
  obtain h | h := List.mem_append.mp h
  · exact (interleave_perm _).mem_iff.mp h
  · rw [(Body.mem_others s h).2.2] at hs
    cases hs

/-- Definitions stand in place of references in the order in which they are inside the
definition. -/
theorem Writable.inlined_statements {names : String → Prop} {d : Definition} (h : d.Writable names)
    (hids : (d.nested.map (·.id)).Pairwise (· ≤ ·)) :
    d.statements.filterMap (·.inlined?) = d.nested.map (·.id) := by
  have hpreamble : d.preamble.filterMap (·.inlined?) = [] :=
    List.filterMap_eq_nil_iff.mpr fun s hs =>
      (Statement.of_not_addsToBody (not_addsToBody_of_mem_preamble s hs) d.kind).2.1
  have hothers : d.body.others.filterMap (·.inlined?) = [] :=
    List.filterMap_eq_nil_iff.mpr fun s hs => (Body.mem_others s hs).2.2
  have hincreasing : ∀ group ∈ d.body.groups,
      (group.filterMap (·.inlined?)).Pairwise (· ≤ ·) := fun group hgroup =>
    (h.increasing group hgroup).imp Nat.le_of_lt
  rw [Definition.statements, Body.statements, List.filterMap_append, List.filterMap_append,
    hpreamble, hothers, List.nil_append, List.append_nil]
  exact (((interleave_perm _).filterMap _).trans h.inlined).eq_of_pairwise'
    (pairwise_interleave hincreasing) hids

end Definition

end Syntax

end EventCatalog
