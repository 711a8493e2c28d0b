import Mathlib.Data.Finset.Card
import Mathlib.Data.List.Induction
import Placement.Proofs.Formula.Postfix

namespace Placement

theorem eraseDups_concat {α : Type} [DecidableEq α] (values : List α) (value : α) :
    (values ++ [value]).eraseDups =
      if value ∈ values then values.eraseDups else values.eraseDups ++ [value] := by
  rw [List.eraseDups_append]
  by_cases member : value ∈ values
  · simp [List.removeAll, member]
  · simp [List.removeAll, member, List.eraseDups_cons]

theorem nodup_eraseDups {α : Type} [DecidableEq α] (values : List α) :
    values.eraseDups.Nodup := by
  induction values using List.reverseRecOn with
  | nil => exact .nil
  | append_singleton values value ih =>
    rw [eraseDups_concat]
    split
    · exact ih
    · rename_i new
      rw [← List.mem_eraseDups] at new
      exact List.nodup_append.mpr ⟨ih, List.nodup_singleton value, fun other member last isLast =>
        by rintro rfl; exact new (List.mem_singleton.mp isLast ▸ member)⟩

theorem eraseDups_filter {α : Type} [DecidableEq α] (p : α → Bool) (values : List α) :
    (values.filter p).eraseDups = values.eraseDups.filter p := by
  induction values using List.reverseRecOn with
  | nil => rfl
  | append_singleton values value ih =>
    rw [List.filter_append, eraseDups_concat]
    by_cases kept : p value = true
    · rw [List.filter_cons_of_pos kept, List.filter_nil, eraseDups_concat, ih]
      by_cases member : value ∈ values
      · rw [if_pos member, if_pos (List.mem_filter.mpr ⟨member, kept⟩)]
      · rw [if_neg member, if_neg fun inside => member (List.mem_filter.mp inside).1,
          List.filter_append, List.filter_cons_of_pos kept, List.filter_nil]
    · rw [List.filter_cons_of_neg kept, List.filter_nil, List.append_nil, ih]
      split
      · rfl
      · rw [List.filter_append, List.filter_cons_of_neg kept, List.filter_nil, List.append_nil]

theorem Category.ofName?_name (category : Category) : ofName? category.name = some category := by
  cases category <;> rfl

theorem Category.name_injective : Function.Injective Category.name := by
  intro a b same
  have found := ofName?_name a
  rw [same, ofName?_name] at found
  exact (Option.some.inj found).symm

namespace Registry

variable {α : Type}

theorem contains_iff {registry : Registry α} {name : String} :
    registry.contains name = true ↔ name ∈ registry.names := by
  simp [contains, names]

theorem find?_eq_none_iff {registry : Registry α} {name : String} :
    registry.find? name = none ↔ name ∉ registry.names := by
  rw [find?, find?_eq_none_iff_ne, names, List.mem_map]
  simp

/-- Putting a function in the place of others of its name changes no name. -/
theorem names_register (registry : Registry α) (f : Definition α) :
    (registry.register f).names =
      if f.name ∈ registry.names then registry.names else registry.names ++ [f.name] := by
  unfold register
  by_cases known : f.name ∈ registry.names
  · rw [if_pos (contains_iff.mpr known), if_pos known, names, names, List.map_map]
    refine List.map_congr_left fun old _ => ?_
    by_cases same : old.name = f.name
    · simp [same]
    · simp [same]
  · rw [if_neg (mt contains_iff.mp known), if_neg known]
    simp [names]

theorem find?_register (registry : Registry α) (f : Definition α) (name : String) :
    (registry.register f).find? name = if f.name = name then some f else registry.find? name := by
  unfold register
  by_cases known : f.name ∈ registry.names
  · rw [if_pos (contains_iff.mpr known), find?, List.find?_map]
    -- What is put in a place has the name that stood there.
    have sameNames : ((·.name == name) ∘ fun old => if old.name == f.name then f else old) =
        fun old : Definition α => old.name == name := by
      funext old
      by_cases same : old.name = f.name <;> simp [same]
    rw [sameNames]
    change (registry.find? name).map _ = _
    cases found : registry.find? name with
    | none =>
      have different : f.name ≠ name := fun same => find?_eq_none_iff.mp found (same ▸ known)
      rw [if_neg different]
      rfl
    | some old =>
      obtain ⟨_, _, _, named, _⟩ := find?_eq_some_iff_isFirst.mp found
      rw [Option.map_some, named]
      by_cases same : f.name = name
      · simp [same]
      · simp [same, Ne.symm same]
  · rw [if_neg (mt contains_iff.mp known), find?, List.find?_append]
    change (registry.find? name).or _ = _
    by_cases same : f.name = name
    · rw [same] at known
      rw [find?_eq_none_iff.mpr known]
      simp [same]
    · simp [same]

theorem ofList_concat (history : List (Definition α)) (f : Definition α) :
    ofList (history ++ [f]) = (ofList history).register f := by
  rw [ofList, List.foldl_append]
  rfl

theorem names_ofList (history : List (Definition α)) :
    (ofList history).names = (history.map (·.name)).eraseDups := by
  induction history using List.reverseRecOn with
  | nil => rfl
  | append_singleton history f ih =>
    rw [ofList_concat, names_register, ih, List.map_append, List.map_singleton, eraseDups_concat]
    simp only [List.mem_eraseDups]

theorem find?_ofList (history : List (Definition α)) (name : String) :
    (ofList history).find? name = history.reverse.find? (·.name == name) := by
  induction history using List.reverseRecOn with
  | nil => rfl
  | append_singleton history f ih =>
    rw [ofList_concat, find?_register, ih, List.reverse_append, List.reverse_singleton,
      List.singleton_append, List.find?_cons]
    by_cases same : f.name = name
    · rw [if_pos same, beq_iff_eq.mpr same]
    · rw [if_neg same, beq_false_of_ne same]

/-- Functions with different names are kept as they come. -/
theorem ofList_of_nodup {definitions : List (Definition α)}
    (different : (definitions.map (·.name)).Nodup) : ofList definitions = ⟨definitions⟩ := by
  induction definitions using List.reverseRecOn with
  | nil => rfl
  | append_singleton definitions f ih =>
    rw [List.map_append, List.map_singleton, List.nodup_append] at different
    obtain ⟨before, _, apart⟩ := different
    have new : ¬ (ofList definitions).contains f.name = true := by
      rw [ih before, contains_iff]
      exact fun member => apart f.name member f.name (List.mem_singleton.mpr rfl) rfl
    rw [ofList_concat, register, if_neg new, ih before]

theorem get_eq_ok_iff {registry : Registry α} {name : String} {f : Definition α} :
    registry.get name = .ok f ↔ registry.find? name = some f := by
  unfold get
  cases registry.find? name <;> simp

theorem get_eq_error_iff {registry : Registry α} {name : String} {cause : EvaluationError} :
    registry.get name = .error cause ↔
      cause = .unknownFunction name ∧ name ∉ registry.names := by
  rw [← find?_eq_none_iff, get]
  cases registry.find? name <;> simp [eq_comm]

theorem get_eq_ok_iff_mem {registry : Registry α} (different : registry.names.Nodup)
    {name : String} {f : Definition α} :
    registry.get name = .ok f ↔ f ∈ registry.definitions ∧ f.name = name := by
  rw [get_eq_ok_iff]
  constructor
  · intro found
    obtain ⟨before, after, split, named, _⟩ := find?_eq_some_iff_isFirst.mp found
    exact ⟨by rw [split]; simp, named⟩
  · rintro ⟨member, rfl⟩
    cases found : registry.find? f.name with
    | none => exact absurd (List.mem_map_of_mem member) (find?_eq_none_iff.mp found)
    | some other =>
      obtain ⟨before, after, split, named, _⟩ := find?_eq_some_iff_isFirst.mp found
      have listed : other ∈ registry.definitions := by rw [split]; simp
      exact congrArg some (List.inj_on_of_nodup_map different listed member named)

theorem map_members_of_notMem {categories : List Category} {category : Category}
    (new : category ∉ categories) (members more : Category → List String) :
    (categories.map fun c => (c, if c = category then more c else members c)) =
      categories.map fun c => (c, members c) :=
  List.map_congr_left fun c member => by
    have different : c ≠ category := fun same => new (same ▸ member)
    rw [if_neg different]

/-- Adding a name to groups that stand one for each category. -/
theorem addToGroup_map {categories : List Category} (different : categories.Nodup)
    (members : Category → List String) (category : Category) (name : String) :
    addToGroup category name (categories.map fun c => (c, members c)) =
      if category ∈ categories then
        categories.map fun c => (c, if c = category then members c ++ [name] else members c)
      else (categories.map fun c => (c, members c)) ++ [(category, [name])] := by
  induction categories with
  | nil => rfl
  | cons first rest ih =>
    obtain ⟨notInRest, different⟩ := List.nodup_cons.mp different
    rw [List.map_cons, addToGroup]
    by_cases same : first = category
    · subst same
      rw [if_pos rfl, if_pos List.mem_cons_self, List.map_cons, if_pos rfl,
        map_members_of_notMem notInRest]
    · rw [if_neg same, ih different, List.map_cons, if_neg same]
      by_cases inRest : category ∈ rest
      · rw [if_pos inRest, if_pos (List.mem_cons_of_mem _ inRest)]
      · rw [if_neg inRest, if_neg (by simp [Ne.symm same, inRest]), List.cons_append]

/-- The groups stand in the order of their first functions, and the names in a group in the order
of theirs. -/
theorem foldl_addToGroup (functions : List (Definition α)) :
    functions.foldl (fun groups f => addToGroup f.category f.name groups) [] =
      (functions.map (·.category)).eraseDups.map fun c =>
        (c, (functions.filter (·.category == c)).map (·.name)) := by
  induction functions using List.reverseRecOn with
  | nil => rfl
  | append_singleton functions f ih =>
    have grown (c : Category) :
        ((functions ++ [f]).filter (·.category == c)).map (·.name) =
          if c = f.category then (functions.filter (·.category == c)).map (·.name) ++ [f.name]
          else (functions.filter (·.category == c)).map (·.name) := by
      rw [List.filter_append]
      by_cases same : c = f.category
      · simp [same]
      · simp [same, Ne.symm same]
    rw [List.foldl_append, ih, List.foldl_cons, List.foldl_nil,
      addToGroup_map (nodup_eraseDups _), List.map_append, List.map_singleton, eraseDups_concat]
    simp only [List.mem_eraseDups, grown]
    split
    · rfl
    · rename_i new
      have empty : functions.filter (·.category == f.category) = [] :=
        List.filter_eq_nil_iff.mpr fun g member same =>
          new (List.mem_map.mpr ⟨g, member, eq_of_beq same⟩)
      rw [← List.mem_eraseDups] at new
      rw [List.map_append, List.map_singleton, if_pos rfl, empty, map_members_of_notMem new]
      rfl

/-- All that can be asked of a registry tells of the same functions: those last registered under
the names of a history. -/
structure Records (history : List (Definition α)) (registry : Registry α) : Prop where
  names_eq : registry.names = (history.map (·.name)).eraseDups
  names_nodup : registry.names.Nodup
  get_eq_ok_iff : ∀ name f, registry.get name = .ok f ↔
    IsFirst Definition.name name history.reverse f
  get_eq_error_iff : ∀ name cause, registry.get name = .error cause ↔
    cause = .unknownFunction name ∧ name ∉ history.map (·.name)
  contains_iff : ∀ name, registry.contains name = true ↔ name ∈ history.map (·.name)
  listed : registry.definitions.map Except.ok = registry.names.map registry.get
  size_eq : registry.size = (history.map (·.name)).toFinset.card

/-- The documentation of a registry names each function once and puts it into the group of its
category once. -/
structure Documents (registry : Registry α) : Prop where
  functions_eq : (registry.document none).functions = registry.definitions
  categories_nodup : ((registry.document none).byCategory.map (·.1.name)).Nodup
  grouped_once : ((registry.document none).byCategory.flatMap (·.2)).Perm registry.names
  mem_group_iff : ∀ group ∈ (registry.document none).byCategory, ∀ name,
    name ∈ group.2 ↔ ∃ f, registry.get name = .ok f ∧ f.category = group.1
  group_ordered : ∀ group ∈ (registry.document none).byCategory,
    group.2.Sublist registry.names ∧ group.2 ≠ []
  restricted : ∀ category, registry.document (some category) =
    ⟨(registry.document none).functions.filter (·.category == category),
      (registry.document none).byCategory.filter (·.1 == category)⟩

theorem ofList_records (history : List (Definition α)) : (ofList history).Records history := by
  have different : (ofList history).names.Nodup := by
    rw [names_ofList]
    exact nodup_eraseDups _
  have known (name : String) : name ∈ (ofList history).names ↔ name ∈ history.map (·.name) := by
    rw [names_ofList, List.mem_eraseDups]
  refine ⟨names_ofList history, different, fun name f => ?_, fun name cause => ?_, fun name => ?_,
    ?_, ?_⟩
  · rw [get_eq_ok_iff, find?_ofList]
    exact find?_eq_some_iff_isFirst
  · rw [get_eq_error_iff, known]
  · rw [contains_iff, known]
  · rw [names, List.map_map]
    exact List.map_congr_left fun f member =>
      ((get_eq_ok_iff_mem different).mpr ⟨member, rfl⟩).symm
  · have same : (history.map (·.name)).toFinset = (ofList history).names.toFinset :=
      Finset.ext fun name => by rw [List.mem_toFinset, List.mem_toFinset, known]
    rw [same, List.toFinset_card_of_nodup different, names, List.length_map, size]

theorem byCategory_eq (registry : Registry α) : (registry.document none).byCategory =
    (registry.definitions.map (·.category)).eraseDups.map fun c =>
      (c, (registry.ofCategory c).map (·.name)) :=
  foldl_addToGroup registry.definitions

/-- The groups of one category are the group of that category. -/
theorem document_eq_filter (registry : Registry α) (category : Category) :
    registry.document (some category) =
      ⟨(registry.document none).functions.filter (·.category == category),
        (registry.document none).byCategory.filter (·.1 == category)⟩ := by
  have groups : (registry.document (some category)).byCategory =
      (registry.document none).byCategory.filter (·.1 == category) := by
    have categories : (registry.ofCategory category).map (·.category) =
        (registry.definitions.map (·.category)).filter (· == category) := by
      rw [List.filter_map]
      rfl
    rw [byCategory_eq, List.filter_map]
    refine (foldl_addToGroup (registry.ofCategory category)).trans ?_
    rw [categories, eraseDups_filter]
    refine List.map_congr_left fun c member => ?_
    obtain rfl := eq_of_beq (List.mem_filter.mp member).2
    rw [ofCategory, List.filter_filter]
    simp only [Bool.and_self]
  rw [← groups]
  rfl

theorem mem_ofCategory_iff {registry : Registry α} (different : registry.names.Nodup)
    {category : Category} {name : String} :
    name ∈ (registry.ofCategory category).map (·.name) ↔
      ∃ f, registry.get name = .ok f ∧ f.category = category := by
  simp only [get_eq_ok_iff_mem different, ofCategory, List.mem_map, List.mem_filter, beq_iff_eq]
  constructor
  · rintro ⟨f, ⟨member, inCategory⟩, named⟩
    exact ⟨f, ⟨member, named⟩, inCategory⟩
  · rintro ⟨f, ⟨member, named⟩, inCategory⟩
    exact ⟨f, ⟨member, inCategory⟩, named⟩

theorem documents_of_nodup {registry : Registry α} (different : registry.names.Nodup) :
    registry.Documents where
  functions_eq := rfl
  categories_nodup := by
    rw [byCategory_eq, List.map_map]
    exact (nodup_eraseDups _).map Category.name_injective
  grouped_once := by
    rw [byCategory_eq, List.flatMap_map]
    refine (List.perm_ext_iff_of_nodup ?_ different).mpr fun name => ?_
    · refine List.nodup_flatMap.mpr ⟨fun c _ => ?_, ?_⟩
      · exact different.sublist (List.filter_sublist.map _)
      · refine (nodup_eraseDups _).imp fun apart name inFirst inSecond => apart ?_
        obtain ⟨f, atFirst, rfl⟩ := (mem_ofCategory_iff different).mp inFirst
        obtain ⟨g, atSecond, rfl⟩ := (mem_ofCategory_iff different).mp inSecond
        rw [Except.ok.inj (atFirst.symm.trans atSecond)]
    · rw [List.mem_flatMap]
      constructor
      · rintro ⟨c, _, member⟩
        exact (List.filter_sublist.map _).subset member
      · intro member
        obtain ⟨f, listed, rfl⟩ := List.mem_map.mp member
        refine ⟨f.category, List.mem_eraseDups.mpr (List.mem_map_of_mem listed), ?_⟩
        exact (mem_ofCategory_iff different).mpr
          ⟨f, (get_eq_ok_iff_mem different).mpr ⟨listed, rfl⟩, rfl⟩
  mem_group_iff := by
    intro group member name
    rw [byCategory_eq] at member
    obtain ⟨c, _, rfl⟩ := List.mem_map.mp member
    exact mem_ofCategory_iff different
  group_ordered := by
    intro group member
    rw [byCategory_eq] at member
    obtain ⟨c, inUse, rfl⟩ := List.mem_map.mp member
    obtain ⟨f, listed, inCategory⟩ := List.mem_map.mp (List.mem_eraseDups.mp inUse)
    refine ⟨List.filter_sublist.map _, List.ne_nil_of_mem (a := f.name) ?_⟩
    exact List.mem_map_of_mem (List.mem_filter.mpr ⟨listed, beq_iff_eq.mpr inCategory⟩)
  restricted := registry.document_eq_filter

end Registry

theorem Builtin.registry_eq_ofList : registry = .ofList definitions :=
  (Registry.ofList_of_nodup (by decide)).symm

/-- Whatever is registered one after the other, in an empty registry or among the built-in
functions, is kept and documented. -/
theorem registered_kept {α : Type} (history : List (Definition α))
    (more : List (Definition Single)) :
    ((history.foldl Registry.register {}).Records history ∧
      (history.foldl Registry.register {}).Documents) ∧
    (more.foldl Registry.register Builtin.registry).Records (Builtin.definitions ++ more) ∧
      (more.foldl Registry.register Builtin.registry).Documents := by
  have joined : more.foldl Registry.register Builtin.registry =
      .ofList (Builtin.definitions ++ more) := by
    rw [Builtin.registry_eq_ofList, Registry.ofList, Registry.ofList, List.foldl_append]
  have kept {β : Type} (history : List (Definition β)) :
      (Registry.ofList history).Records history ∧ (Registry.ofList history).Documents :=
    ⟨Registry.ofList_records history,
      Registry.documents_of_nodup (Registry.ofList_records history).names_nodup⟩
  rw [joined]
  exact ⟨kept history, kept _⟩

end Placement
