import BeliefRevision.Proofs.Valuation
import BeliefRevision.Registry

/-!
# Where handles come from

A registry tells handles apart by their cells and remembers of each name the cell that it handed out
last, whether or not some slot still holds it. A ledger notes in plain terms what has happened: for
each slot where its handle comes from, directly or through copies, and which names were asked for.
It knows neither cells nor stale entries, so it says on its own which handles should be the same.

The two are kept by the same actions. What makes them agree is that a held handle is the one that
its name's entry points to exactly if it was handed out for that name (`Agrees.entry`). Drops, which
the registry does not notice, leave this true, and so do purges; where a stale entry is replaced, no
slot holds the old handle.

* `Agrees.act`: registry and ledger agree after each action.
* **`handles_follow_origins`**: handles are the same exactly if they come from the same origin, and
  the registry counts the names in the ledger.
-/

namespace BeliefRevision

/-! ## Actions and what they leave behind -/

/-- Where a handle comes from, directly or through copies. -/
inductive Origin where
  /-- It was requested from the registry by its name. -/
  | registered (name : Variable)
  /-- It was made without the registry, as the one of the given number. -/
  | aside (name : Variable) (number : Nat)
deriving DecidableEq, Repr

namespace Origin

/-- The variable of a handle of this origin. -/
def name : Origin → Variable
  | registered n | aside n _ => n

/-- The name by which the handle was requested from the registry, if it was. -/
def registered? : Origin → Option Variable
  | registered n => some n
  | aside _ _ => none

end Origin

/-- What the owners of handles do. -/
inductive Action where
  /-- Requesting the handle of a name, to be stored in a slot. -/
  | request (slot : String) (name : Variable)
  /-- Making a handle without the registry. -/
  | makeAside (slot : String) (name : Variable)
  /-- Copying the handle of one slot to another. -/
  | copy (slot source : String)
  /-- Emptying a slot. -/
  | drop (slot : String)
  /-- Purging the registry. -/
  | purge
deriving DecidableEq, Repr

namespace Registry

/-- The registry after an action; nothing is copied from an empty slot. -/
def act (r : Registry) : Action → Registry
  | .request slot name => r.request slot name
  | .makeAside slot name => r.makeAside slot name
  | .copy slot source => (r.copy? slot source).getD r
  | .drop slot => r.drop slot
  | .purge => r.purge

/-- The registry, empty at first, after some actions. -/
def after (actions : List Action) : Registry := actions.foldl act {}

end Registry

/-- A record of where handles come from and which names were asked for. -/
structure Ledger where
  /-- Where the handle in each slot comes from. -/
  origins : Std.ExtTreeMap String Origin := ∅
  /-- The names asked for and not removed since. -/
  asked : Vocabulary := ∅
  /-- The number of handles made without the registry. -/
  asides : Nat := 0

namespace Ledger

/-- Notes the origin of the handle in a slot. -/
def note (l : Ledger) (slot : String) (o : Origin) : Ledger :=
  { l with origins := l.origins.insert slot o }

/-- The names whose requested handles are held somewhere. -/
def live (l : Ledger) : Vocabulary :=
  .ofList (l.origins.toList.filterMap fun (_, o) => o.registered?)

/-- The ledger after an action. A purge removes the names whose requested handles are held
nowhere. -/
def act (l : Ledger) : Action → Ledger
  | .request slot name => { l with asked := l.asked.insert name }.note slot (.registered name)
  | .makeAside slot name => { l with asides := l.asides + 1 }.note slot (.aside name l.asides)
  | .copy slot source =>
    match l.origins[source]? with
    | some o => l.note slot o
    | none => l
  | .drop slot => { l with origins := l.origins.erase slot }
  | .purge => { l with asked := l.asked.filter fun name => l.live.contains name }

/-- The ledger, empty at first, after some actions. -/
def after (actions : List Action) : Ledger := actions.foldl act {}

theorem mem_live {l : Ledger} {n : Variable} :
    n ∈ l.live ↔ ∃ slot : String, l.origins[slot]? = some (.registered n) := by
  rw [live, mem_vocabulary_ofList, List.mem_filterMap]
  simp only [Prod.exists, Std.ExtTreeMap.mem_toList_iff_getElem?_eq_some]
  refine exists_congr fun slot => ⟨?_, fun h => ⟨_, h, rfl⟩⟩
  rintro ⟨o, ho, hn⟩
  cases o <;> cases hn
  exact ho

end Ledger

namespace Registry

variable {r : Registry} {n : Variable} {cell : Nat}

theorem isHeld_iff : r.isHeld cell = true ↔
    ∃ (slot : String) (g : Handle), r.slots[slot]? = some g ∧ g.cell = cell := by
  rw [isHeld, List.any_eq_true]
  simp only [Prod.exists, Std.ExtTreeMap.mem_toList_iff_getElem?_eq_some, beq_iff_eq]

theorem getElem?_purge :
    r.purge.entries[n]? = some cell ↔ r.entries[n]? = some cell ∧ r.isHeld cell = true := by
  rw [purge, Std.ExtTreeMap.getElem?_filter', Option.filter_eq_some_iff]

end Registry

/-! ## Agreement -/

/-- A slot holds a handle according to the registry, which comes from an origin according to the
ledger. -/
structure Holds (r : Registry) (l : Ledger) (slot : String) (g : Handle) (o : Origin) : Prop where
  handle : r.slots[slot]? = some g
  origin : l.origins[slot]? = some o

variable {r : Registry} {l : Ledger} {slot slot' : String} {g h : Handle} {o o' : Origin}
  {n : Variable}

theorem holds_iff : Holds r l slot g o ↔ r.slots[slot]? = some g ∧ l.origins[slot]? = some o :=
  ⟨fun held => ⟨held.handle, held.origin⟩, fun held => ⟨held.1, held.2⟩⟩

theorem holds_store : Holds { r with slots := r.slots.insert slot g } (l.note slot o) slot' h o' ↔
    if slot = slot' then g = h ∧ o = o' else Holds r l slot' h o' := by
  rw [holds_iff, Ledger.note, Std.ExtTreeMap.getElem?_insert, Std.ExtTreeMap.getElem?_insert]
  simp only [Std.LawfulEqOrd.compare_eq_iff_eq]
  split
  · rw [Option.some.injEq, Option.some.injEq]
  · exact holds_iff.symm

/-- Registry and ledger agree. -/
structure Agrees (r : Registry) (l : Ledger) : Prop where
  /-- They have the same slots filled, with handles of the same names. -/
  names : ∀ slot : String, r.slots[slot]?.map Handle.name = l.origins[slot]?.map Origin.name
  /-- Held handles have the same cell if they come from the same origin. -/
  same : ∀ {slot slot' g h o o'}, Holds r l slot g o → Holds r l slot' h o' →
    (g.cell = h.cell ↔ o = o')
  /-- A held handle is the one that a name's entry points to if it was requested by that name. -/
  entry : ∀ {slot g o}, Holds r l slot g o → ∀ n : Variable,
    r.entries[n]? = some g.cell ↔ o = .registered n
  /-- Cells are numbered in the order in which they are made. -/
  held_lt : ∀ {slot : String} {g : Handle}, r.slots[slot]? = some g → g.cell < r.cells
  entry_lt : ∀ {n : Variable} {c : Nat}, r.entries[n]? = some c → c < r.cells
  /-- So are the handles made without the registry. -/
  aside_lt : ∀ {slot : String} {n t}, l.origins[slot]? = some (.aside n t) → t < l.asides
  /-- They have the same names registered. -/
  asked : ∀ n, n ∈ r.entries ↔ n ∈ l.asked

namespace Agrees

theorem empty : Agrees {} {} where
  names _ := by simp
  same h := by simpa using h.handle
  entry h := by simpa using h.handle
  held_lt h := by simp at h
  entry_lt h := by simp at h
  aside_lt h := by simp at h
  asked n := iff_of_false Std.ExtTreeMap.not_mem_empty Std.ExtTreeSet.not_mem_empty

theorem exists_origin (a : Agrees r l) (h : r.slots[slot]? = some g) :
    ∃ o, Holds r l slot g o := by
  have name := a.names slot
  rw [h, Option.map_some, eq_comm, Option.map_eq_some_iff] at name
  obtain ⟨o, ho, -⟩ := name
  exact ⟨o, h, ho⟩

theorem exists_handle (a : Agrees r l) (h : l.origins[slot]? = some o) :
    ∃ g, Holds r l slot g o := by
  have name := a.names slot
  rw [h, Option.map_some, Option.map_eq_some_iff] at name
  obtain ⟨g, hg, -⟩ := name
  exact ⟨g, hg, h⟩

theorem name (a : Agrees r l) (held : Holds r l slot g o) : g.name = o.name := by
  have name := a.names slot
  rw [held.handle, held.origin] at name
  exact Option.some.inj name

/-! ### Storing a handle -/

/-- Storing a handle keeps the agreement if its origin fits the handles held already. -/
theorem store (a : Agrees r l) (slot : String) (name : g.name = o.name) (lt : g.cell < r.cells)
    (same : ∀ {slot' h o'}, Holds r l slot' h o' → (g.cell = h.cell ↔ o = o'))
    (entry : ∀ n : Variable, r.entries[n]? = some g.cell ↔ o = .registered n)
    (number : ∀ {n t}, o = .aside n t → t < l.asides) :
    Agrees { r with slots := r.slots.insert slot g } (l.note slot o) where
  names slot' := by
    rw [Ledger.note, Std.ExtTreeMap.getElem?_insert, Std.ExtTreeMap.getElem?_insert]
    split
    · rw [Option.map_some, Option.map_some, name]
    · exact a.names slot'
  same first second := by
    rw [holds_store] at first second
    split at first <;> split at second
    · obtain ⟨rfl, rfl⟩ := first
      obtain ⟨rfl, rfl⟩ := second
      exact iff_of_true rfl rfl
    · obtain ⟨rfl, rfl⟩ := first
      exact same second
    · obtain ⟨rfl, rfl⟩ := second
      rw [eq_comm, same first, eq_comm]
    · exact a.same first second
  entry held := by
    rw [holds_store] at held
    split at held
    · obtain ⟨rfl, rfl⟩ := held
      exact entry
    · exact a.entry held
  held_lt held := by
    rw [Std.ExtTreeMap.getElem?_insert] at held
    split at held
    · exact Option.some.inj held ▸ lt
    · exact a.held_lt held
  entry_lt := a.entry_lt
  aside_lt held := by
    rw [Ledger.note, Std.ExtTreeMap.getElem?_insert] at held
    split at held
    · exact number (Option.some.inj held)
    · exact a.aside_lt held
  asked := a.asked

/-- Copies share the origin of what they are copied from. -/
theorem copy (a : Agrees r l) (held : Holds r l slot' g o) (slot : String) :
    Agrees { r with slots := r.slots.insert slot g } (l.note slot o) := by
  refine a.store slot (a.name held) (a.held_lt held.handle) (a.same held) (a.entry held) ?_
  rintro n t rfl
  exact a.aside_lt held.origin

/-! ### Making a handle -/

/-- What touches no slot keeps the agreement if entries still point to the handles that they
should. -/
theorem of_slots_eq {r' : Registry} {l' : Ledger} (a : Agrees r l) (slots : r'.slots = r.slots)
    (origins : l'.origins = l.origins) (cells : r.cells ≤ r'.cells) (asides : l.asides ≤ l'.asides)
    (entry : ∀ {slot g o}, Holds r l slot g o → ∀ n : Variable,
      r'.entries[n]? = some g.cell ↔ o = .registered n)
    (entry_lt : ∀ {n : Variable} {c : Nat}, r'.entries[n]? = some c → c < r'.cells)
    (asked : ∀ n, n ∈ r'.entries ↔ n ∈ l'.asked) : Agrees r' l' := by
  have before {slot g o} (held : Holds r' l' slot g o) : Holds r l slot g o :=
    ⟨slots ▸ held.handle, origins ▸ held.origin⟩
  exact
    { names := fun slot => by rw [slots, origins, a.names]
      same := fun first second => a.same (before first) (before second)
      entry := fun held => entry (before held)
      held_lt := fun held => Nat.lt_of_lt_of_le (a.held_lt (slots ▸ held)) cells
      entry_lt := entry_lt
      aside_lt := fun held => Nat.lt_of_lt_of_le (a.aside_lt (origins ▸ held)) asides
      asked := asked }

/-- Pointing the entry of a name to a new cell keeps the agreement, unless a handle requested by
that name is held. -/
theorem register (a : Agrees r l) (stale : ∀ slot g, ¬Holds r l slot g (.registered n)) :
    Agrees { r with entries := r.entries.insert n r.cells, cells := r.cells + 1 }
      { l with asked := l.asked.insert n } := by
  refine a.of_slots_eq rfl rfl (Nat.le_succ r.cells) (Nat.le_refl _) ?_ ?_ ?_
  · intro slot g o held m
    rw [Std.ExtTreeMap.getElem?_insert]
    split
    · next eq =>
      cases Std.LawfulEqOrd.compare_eq_iff_eq.mp eq
      have lt := a.held_lt held.handle
      refine iff_of_false (fun eq => ?_) ?_
      · exact Nat.ne_of_gt lt (Option.some.inj eq)
      · rintro rfl
        exact stale slot g held
    · exact a.entry held m
  · intro m c found
    rw [Std.ExtTreeMap.getElem?_insert] at found
    split at found
    · exact Option.some.inj found ▸ Nat.lt_succ_self r.cells
    · exact Nat.lt_succ_of_lt (a.entry_lt found)
  · intro m
    rw [Std.ExtTreeMap.mem_insert, Std.ExtTreeSet.mem_insert, a.asked]

/-- A new handle of a name is the same as no other. -/
theorem request_new (a : Agrees r l) (slot : String)
    (stale : ∀ slot g, ¬Holds r l slot g (.registered n)) :
    Agrees { r.makeAside slot n with entries := r.entries.insert n r.cells }
      (l.act (.request slot n)) := by
  refine (a.register stale).store slot rfl (Nat.lt_succ_self r.cells) ?_ ?_ ?_
  · intro slot' h o' held
    refine iff_of_false (Nat.ne_of_gt (a.held_lt held.handle)) ?_
    rintro rfl
    exact stale slot' h ⟨held.handle, held.origin⟩
  · intro m
    rw [Std.ExtTreeMap.getElem?_insert, Origin.registered.injEq,
      ← Std.LawfulEqOrd.compare_eq_iff_eq (a := n)]
    split
    · next eq => exact iff_of_true rfl eq
    · next ne => exact iff_of_false (fun found => Nat.lt_irrefl _ (a.entry_lt found)) ne
  · rintro m t ⟨⟩

/-- Requesting a name whose handle is held somewhere copies that handle. -/
theorem request_held (a : Agrees r l) (held : Holds r l slot' g (.registered n)) (slot : String) :
    Agrees { r with slots := r.slots.insert slot ⟨n, g.cell⟩ } (l.act (.request slot n)) := by
  have known : l.asked.insert n = l.asked := by
    refine Std.ExtTreeSet.ext_mem fun m => ?_
    rw [Std.ExtTreeSet.mem_insert, Std.LawfulEqOrd.compare_eq_iff_eq, or_iff_right_of_imp]
    rintro rfl
    rw [← a.asked, Std.ExtTreeMap.mem_iff_isSome_getElem?, (a.entry held n).mpr rfl]
    rfl
  obtain ⟨_, cell⟩ := g
  cases a.name held
  rw [Ledger.act, known]
  exact a.copy held slot

theorem request (a : Agrees r l) (slot : String) (n : Variable) :
    Agrees (r.request slot n) (l.act (.request slot n)) := by
  -- A held handle that was requested by the name is the one of the entry.
  have found {slot g} (held : Holds r l slot g (.registered n)) : r.entries[n]? = some g.cell :=
    (a.entry held n).mpr rfl
  unfold Registry.request
  split
  · next cell entry =>
    split
    · next held =>
      obtain ⟨source, g, hg, rfl⟩ := Registry.isHeld_iff.mp held
      obtain ⟨o, held⟩ := a.exists_origin hg
      cases (a.entry held n).mp entry
      exact a.request_held held slot
    · next unheld =>
      refine a.request_new slot fun slot g held => unheld ?_
      exact Registry.isHeld_iff.mpr
        ⟨slot, g, held.handle, Option.some.inj ((found held).symm.trans entry)⟩
  · next none =>
    refine a.request_new slot fun slot g held => ?_
    cases (found held).symm.trans none

theorem makeAside (a : Agrees r l) (slot : String) (n : Variable) :
    Agrees (r.makeAside slot n) (l.act (.makeAside slot n)) := by
  have grown : Agrees { r with cells := r.cells + 1 } { l with asides := l.asides + 1 } :=
    a.of_slots_eq rfl rfl (Nat.le_succ r.cells) (Nat.le_succ l.asides) a.entry
      (fun found => Nat.lt_succ_of_lt (a.entry_lt found)) a.asked
  refine grown.store slot rfl (Nat.lt_succ_self r.cells) ?_ ?_ ?_
  · intro slot' h o' held
    refine iff_of_false (Nat.ne_of_gt (a.held_lt held.handle)) ?_
    rintro rfl
    exact Nat.lt_irrefl _ (a.aside_lt held.origin)
  · exact fun m => iff_of_false (fun found => Nat.lt_irrefl _ (a.entry_lt found)) (by rintro ⟨⟩)
  · rintro m t ⟨⟩
    exact Nat.lt_succ_self l.asides

/-! ### Dropping handles and purging -/

theorem drop (a : Agrees r l) (slot : String) : Agrees (r.drop slot) (l.act (.drop slot)) := by
  have before {α : Type} {m : Std.ExtTreeMap String α} {slot' : String} {x : α}
      (h : (m.erase slot)[slot']? = some x) : m[slot']? = some x := by
    rw [Std.ExtTreeMap.getElem?_erase] at h
    split at h
    · cases h
    · exact h
  have held {slot' h o'} (held : Holds (r.drop slot) (l.act (.drop slot)) slot' h o') :
      Holds r l slot' h o' := ⟨before held.handle, before held.origin⟩
  exact
    { names := fun slot' => by
        rw [Registry.drop, Ledger.act, Std.ExtTreeMap.getElem?_erase, Std.ExtTreeMap.getElem?_erase]
        split
        · rfl
        · exact a.names slot'
      same := fun first second => a.same (held first) (held second)
      entry := fun h => a.entry (held h)
      held_lt := fun h => a.held_lt (before h)
      entry_lt := a.entry_lt
      aside_lt := fun h => a.aside_lt (before h)
      asked := a.asked }

/-- **What a purge leaves registered** are the names whose requested handles are held. -/
theorem mem_purge (a : Agrees r l) : n ∈ r.purge.entries ↔ n ∈ l.live := by
  rw [Std.ExtTreeMap.mem_iff_isSome_getElem?, Option.isSome_iff_exists, Ledger.mem_live]
  simp only [Registry.getElem?_purge, Registry.isHeld_iff]
  constructor
  · rintro ⟨_, entry, slot, g, hg, rfl⟩
    obtain ⟨o, held⟩ := a.exists_origin hg
    cases (a.entry held n).mp entry
    exact ⟨slot, held.origin⟩
  · rintro ⟨slot, origin⟩
    obtain ⟨g, held⟩ := a.exists_handle origin
    exact ⟨g.cell, (a.entry held n).mpr rfl, slot, g, held.handle, rfl⟩

theorem live_subset_asked (a : Agrees r l) (h : n ∈ l.live) : n ∈ l.asked := by
  obtain ⟨slot, origin⟩ := Ledger.mem_live.mp h
  obtain ⟨g, held⟩ := a.exists_handle origin
  rw [← a.asked, Std.ExtTreeMap.mem_iff_isSome_getElem?, (a.entry held n).mpr rfl]
  rfl

theorem purge (a : Agrees r l) : Agrees r.purge (l.act .purge) := by
  refine a.of_slots_eq rfl rfl (Nat.le_refl _) (Nat.le_refl _) ?_ ?_ ?_
  · intro slot g o held n
    rw [Registry.getElem?_purge, and_iff_left (Registry.isHeld_iff.mpr ⟨slot, g, held.handle, rfl⟩)]
    exact a.entry held n
  · exact fun found => a.entry_lt (Registry.getElem?_purge.mp found).1
  · intro n
    rw [a.mem_purge, Ledger.act, Std.ExtTreeSet.mem_filter]
    simp only [Std.ExtTreeSet.get_eq, Std.ExtTreeSet.contains_iff_mem, exists_prop]
    exact (and_iff_right_of_imp a.live_subset_asked).symm

/-! ### Runs -/

/-- **Registry and ledger agree after each action**, if they did before. -/
theorem act (a : Agrees r l) (action : Action) : Agrees (r.act action) (l.act action) := by
  cases action with
  | request slot name => exact a.request slot name
  | makeAside slot name => exact a.makeAside slot name
  | copy slot source =>
    rw [Registry.act, Registry.copy?, Ledger.act]
    cases hg : r.slots[source]? with
    | some g =>
      obtain ⟨o, held⟩ := a.exists_origin hg
      rw [held.origin]
      exact a.copy held slot
    | none =>
      have none := a.names source
      rw [hg, Option.map_none, eq_comm, Option.map_eq_none_iff] at none
      rw [none]
      exact a
  | drop slot => exact a.drop slot
  | purge => exact a.purge

theorem after (actions : List Action) : Agrees (Registry.after actions) (Ledger.after actions) := by
  have run : ∀ {r l}, Agrees r l →
      Agrees (actions.foldl Registry.act r) (actions.foldl Ledger.act l) := by
    induction actions with
    | nil => exact id
    | cons action actions ih => exact fun a => ih (a.act action)
  exact run empty

end Agrees

/-- **Handles are the same exactly if they come from the same origin.** Whatever is done with a
registry and any number of slots, the slots hold handles of the names that they should. Two of these
are the same handle if both were requested by the same name, or are copies of one made aside, and in
no other case. They are equal if their names are, and ordered like their names. The registry counts
the names asked for and not removed by a purge since. Right after a purge these are the names whose
requested handles are held. -/
theorem handles_follow_origins (actions : List Action) :
    (∀ slot : String, (Registry.after actions).slots[slot]?.map Handle.name =
      (Ledger.after actions).origins[slot]?.map Origin.name) ∧
    (∀ (slot slot' : String) (g h : Handle) (o o' : Origin),
      (Registry.after actions).slots[slot]? = some g →
      (Registry.after actions).slots[slot']? = some h →
      (Ledger.after actions).origins[slot]? = some o →
      (Ledger.after actions).origins[slot']? = some o' →
      (g.isSame h = true ↔ o = o') ∧ (g.isEqual h = true ↔ o.name = o'.name) ∧
        g.order h = compare o.name o'.name) ∧
    (Registry.after actions).size = (Ledger.after actions).asked.size ∧
    (Registry.after actions).purge.size = (Ledger.after actions).live.size := by
  have a := Agrees.after actions
  refine ⟨a.names, fun slot slot' g h o o' hg hh ho ho' => ?_, ?_, ?_⟩
  · have held : Holds _ _ slot g o := ⟨hg, ho⟩
    have held' : Holds _ _ slot' h o' := ⟨hh, ho'⟩
    rw [Handle.isSame, Handle.isEqual, Handle.order, beq_iff_eq, beq_iff_eq, a.name held,
      a.name held']
    exact ⟨a.same held held', Iff.rfl, rfl⟩
  · exact size_eq_of_mem_iff a.asked
  · exact size_eq_of_mem_iff fun n => a.mem_purge

/-- The handle of a name is dropped, and requested again before a purge and after it. -/
def recreation : List Action :=
  [.request "a" "p", .drop "a", .request "b" "p", .purge, .request "c" "p", .makeAside "d" "p"]

theorem handles_follow_origins_recreation :
    ((Registry.after recreation).slots["b"]? = some ⟨"p", 1⟩ ∧
      (Registry.after recreation).slots["c"]? = some ⟨"p", 1⟩ ∧
      (Registry.after recreation).slots["d"]? = some ⟨"p", 2⟩) ∧
    ((Ledger.after recreation).origins["b"]? = some (.registered "p") ∧
      (Ledger.after recreation).origins["c"]? = some (.registered "p") ∧
      (Ledger.after recreation).origins["d"]? = some (.aside "p" 0)) ∧
    (⟨"p", 1⟩ : Handle).isSame ⟨"p", 1⟩ = true ∧ ¬(⟨"p", 1⟩ : Handle).isSame ⟨"p", 2⟩ = true ∧
    (⟨"p", 1⟩ : Handle).isEqual ⟨"p", 2⟩ = true := by
  have held : (Registry.after recreation).slots["b"]? = some ⟨"p", 1⟩ ∧
      (Registry.after recreation).slots["c"]? = some ⟨"p", 1⟩ ∧
      (Registry.after recreation).slots["d"]? = some ⟨"p", 2⟩ := by decide +kernel
  have origins : (Ledger.after recreation).origins["b"]? = some (.registered "p") ∧
      (Ledger.after recreation).origins["c"]? = some (.registered "p") ∧
      (Ledger.after recreation).origins["d"]? = some (.aside "p" 0) := by decide +kernel
  have pairs := (handles_follow_origins recreation).2.1
  have again := pairs "b" "c" _ _ _ _ held.1 held.2.1 origins.1 origins.2.1
  have apart := pairs "b" "d" _ _ _ _ held.1 held.2.2 origins.1 origins.2.2
  exact ⟨held, origins, again.1.mpr rfl, apart.1.not.mpr (by decide), apart.2.1.mpr rfl⟩

end BeliefRevision
