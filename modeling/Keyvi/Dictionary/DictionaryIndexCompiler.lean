import Mathlib
import Keyvi.Dictionary.DictionaryCompilerCommon

/-!
# The index compiler

`DictionaryIndexCompiler` keeps adds and deletes in one list, sorts it stably and hands the last call of
every key to the generator, if that is an add.
-/

namespace Keyvi.Dictionary

open SortedRuns

variable {V : Type} {W : ValueStoreWriter V}

/-- The members of `DictionaryIndexCompiler`. -/
structure DictionaryIndexCompiler (W : ValueStoreWriter V) where
  keyValues : List KeyValue
  valueStore : W.State
  generator : Option Generator
  sizeOfKeys : Nat
  parallelSortThreshold : Nat

namespace DictionaryIndexCompiler

def new (W : ValueStoreWriter V) (parallelSortThreshold : Nat) : DictionaryIndexCompiler W :=
  ⟨[], W.new, none, 0, parallelSortThreshold⟩

/-- `Add`. -/
def add (c : DictionaryIndexCompiler W) (inputKey : Key) (value : V) :
    Except CompilerError (DictionaryIndexCompiler W) :=
  if c.generator.isSome then .error .noMoreDataOnceCompilationIsDone
  else
    let (valueStore, handle) := W.registerValue c.valueStore value
    .ok { c with
      sizeOfKeys := c.sizeOfKeys + inputKey.length
      valueStore := valueStore
      keyValues := c.keyValues ++ [⟨inputKey, handle⟩] }

/-- `Delete`. -/
def delete (c : DictionaryIndexCompiler W) (inputKey : Key) : DictionaryIndexCompiler W :=
  { c with keyValues := c.keyValues ++ [⟨inputKey, ⟨0, 0, false, true⟩⟩] }

section Compile

variable (stableSort spinsort : List KeyValue → List KeyValue)

/-- `Sort`. -/
def sort (c : DictionaryIndexCompiler W) : List KeyValue :=
  if c.parallelSortThreshold < c.keyValues.length ∧ c.parallelSortThreshold ≠ 0 then
    spinsort c.keyValues
  else stableSort c.keyValues

/-- What is added for a key value pair that is not followed by its key again. -/
def addUnlessDeleted (generator : Generator) (lastKeyValue : KeyValue) : Generator :=
  if !lastKeyValue.value.deleted then generator.add lastKeyValue.key lastKeyValue.value
  else generator

/-- The loop of `Compile` and the last element behind it. -/
def feed (lastKeyValue : KeyValue) : List KeyValue → Generator → Generator
  | [], generator => addUnlessDeleted generator lastKeyValue
  | keyValue :: keyValues, generator =>
    if lastKeyValue.key = keyValue.key then feed keyValue keyValues generator
    else feed keyValue keyValues (addUnlessDeleted generator lastKeyValue)

/-- `Compile`. -/
def compile (c : DictionaryIndexCompiler W) : DictionaryIndexCompiler W :=
  if c.generator.isSome then c
  else
    match c.sort stableSort spinsort with
    | [] => { c with generator := some Generator.new }
    | keyValue :: keyValues =>
      { c with generator := some (feed keyValue keyValues Generator.new), keyValues := [] }

end Compile

/-! ## Calls -/

inductive Call (V : Type)
  | add (key : Key) (value : V)
  | delete (key : Key)

def Call.key : Call V → Key
  | .add key _ => key
  | .delete key => key

/-- One call. -/
def call (c : DictionaryIndexCompiler W) : Call V → Except CompilerError (DictionaryIndexCompiler W)
  | .add key value => c.add key value
  | .delete key => .ok (c.delete key)

/-- All calls in turn. -/
def calls (c : DictionaryIndexCompiler W) :
    List (Call V) → Except CompilerError (DictionaryIndexCompiler W)
  | [] => .ok c
  | f :: fs =>
    match c.call f with
    | .error e => .error e
    | .ok c => c.calls fs

/-! ## The map of the calls -/

/-- A map that is written one call after another, with the value store. -/
structure Written (W : ValueStoreWriter V) where
  valueStore : W.State
  map : Key → Option ValueHandle

/-- An add puts the handle of its value, a delete removes the key. -/
def Written.apply (m : Written W) : Call V → Written W
  | .add key value =>
    let (valueStore, handle) := W.registerValue m.valueStore value
    ⟨valueStore, Function.update m.map key (some handle)⟩
  | .delete key => ⟨m.valueStore, Function.update m.map key none⟩

def Written.empty : Written W := ⟨W.new, fun _ => none⟩

/-- The map has a key if its last call is an add, with the handle that was registered there. -/
theorem Written.map_eq_some_iff (k : Key) (h : ValueHandle) : ∀ fs : List (Call V),
    (fs.foldl apply (empty : Written W)).map k = some h ↔
      ∃ before value after, fs = before ++ .add k value :: after ∧ (∀ f ∈ after, f.key ≠ k) ∧
        h = (W.registerValue (before.foldl apply (empty : Written W)).valueStore value).2 := by
  intro fs
  induction fs using List.reverseRecOn with
  | nil => simp [empty]
  | append_singleton fs f ih =>
    rw [List.foldl_append, List.foldl_cons, List.foldl_nil]
    by_cases hk : f.key = k
    · -- The last call is one of this key.
      constructor
      · intro hmap
        cases f with
        | add key value =>
          obtain rfl : key = k := hk
          refine ⟨fs, value, [], rfl, by simp, ?_⟩
          simpa [apply] using hmap.symm
        | delete key =>
          obtain rfl : key = k := hk
          simp [apply] at hmap
      · rintro ⟨before, value, after, hfs, hafter, rfl⟩
        rcases List.eq_nil_or_concat after with rfl | ⟨after, f', rfl⟩
        · obtain ⟨rfl, hf⟩ := List.append_inj' hfs rfl
          obtain rfl := List.singleton_inj.mp hf
          simp [apply]
        · rw [List.concat_eq_append, ← List.cons_append, ← List.append_assoc] at hfs
          obtain ⟨-, hf⟩ := List.append_inj' hfs rfl
          obtain rfl := List.singleton_inj.mp hf
          exact absurd hk (hafter _ (by simp))
    · have hmap : (Written.apply (fs.foldl apply (empty : Written W)) f).map k =
          (fs.foldl apply (empty : Written W)).map k := by
        cases f with
        | add key value => exact Function.update_of_ne (Ne.symm hk) _ _
        | delete key => exact Function.update_of_ne (Ne.symm hk) _ _
      rw [hmap, ih]
      constructor
      · rintro ⟨before, value, after, rfl, hafter, rfl⟩
        refine ⟨before, value, after ++ [f], by simp, fun f' hf' => ?_, rfl⟩
        rcases List.mem_append.mp hf' with hf' | hf'
        · exact hafter f' hf'
        · rw [List.mem_singleton.mp hf']
          exact hk
      · rintro ⟨before, value, after, hfs, hafter, rfl⟩
        rcases List.eq_nil_or_concat after with rfl | ⟨after, f', rfl⟩
        · obtain ⟨-, hf⟩ := List.append_inj' hfs rfl
          obtain rfl := List.singleton_inj.mp hf
          exact absurd rfl hk
        · rw [List.concat_eq_append, ← List.cons_append, ← List.append_assoc] at hfs
          obtain ⟨rfl, -⟩ := List.append_inj' hfs rfl
          exact ⟨before, value, after, rfl, fun f' hf' => hafter f' (by simp [hf']), rfl⟩

/-- The last entry of a key decides. -/
def lastHandle (keyValues : List KeyValue) (k : Key) : Option ValueHandle :=
  (((run KeyValue.key k keyValues).getLast?).map KeyValue.value).filter fun h => !h.deleted

theorem lastHandle_append (keyValues : List KeyValue) (e : KeyValue) :
    lastHandle (keyValues ++ [e]) =
      Function.update (lastHandle keyValues) e.key
        (if e.value.deleted then none else some e.value) := by
  funext k
  unfold lastHandle
  rw [run_append, run_cons]
  by_cases hk : e.key = k
  · subst hk
    rw [if_pos rfl, Function.update_self, show run KeyValue.key e.key [] = [] from rfl,
      List.getLast?_concat, Option.map_some, Option.filter_some]
    cases e.value.deleted <;> rfl
  · rw [if_neg hk, Function.update_of_ne (Ne.symm hk), show run KeyValue.key k [] = [] from rfl,
      List.append_nil]

/-- What holds between the calls: the compiler holds the calls in order. -/
structure Holds (c : DictionaryIndexCompiler W) (m : Written W) (keys : List Key) : Prop where
  generator : c.generator = none
  valueStore : c.valueStore = m.valueStore
  map : lastHandle c.keyValues = m.map
  keys : c.keyValues.map KeyValue.key = keys

/-- **A call is applied to the map.** -/
theorem Holds.call {c : DictionaryIndexCompiler W} {m : Written W} {keys : List Key}
    (h : Holds c m keys) (f : Call V) :
    ∃ c', c.call f = .ok c' ∧ Holds c' (m.apply f) (keys ++ [f.key]) := by
  have hgen : c.generator.isSome = false := by rw [h.generator]; rfl
  cases f with
  | add key value =>
    have hadd : c.call (.add key value) = .ok { c with
        sizeOfKeys := c.sizeOfKeys + key.length
        valueStore := (W.registerValue c.valueStore value).1
        keyValues := c.keyValues ++ [⟨key, (W.registerValue c.valueStore value).2⟩] } := by
      show c.add key value = _
      unfold add
      rw [hgen, if_neg Bool.false_ne_true]
    refine ⟨_, hadd, h.generator, ?_, ?_, ?_⟩
    · show (W.registerValue c.valueStore value).1 = _
      rw [h.valueStore]
      rfl
    · show lastHandle (c.keyValues ++ [⟨key, (W.registerValue c.valueStore value).2⟩]) = _
      rw [lastHandle_append, h.map, h.valueStore]
      rfl
    · rw [List.map_append, h.keys]
      rfl
  | delete key =>
    refine ⟨_, rfl, h.generator, h.valueStore, ?_, ?_⟩
    · show lastHandle (c.keyValues ++ [⟨key, ⟨0, 0, false, true⟩⟩]) = _
      rw [lastHandle_append, h.map]
      rfl
    · show (c.keyValues ++ [_]).map KeyValue.key = _
      rw [List.map_append, h.keys]
      rfl

theorem Holds.calls : ∀ (fs : List (Call V)) {c : DictionaryIndexCompiler W} {m : Written W}
    {keys : List Key}, Holds c m keys →
    ∃ c', c.calls fs = .ok c' ∧ Holds c' (fs.foldl Written.apply m) (keys ++ fs.map Call.key)
  | [], c, m, keys, h => ⟨c, rfl, by simpa using h⟩
  | f :: fs, c, m, keys, h => by
    obtain ⟨c', hc', h'⟩ := h.call f
    obtain ⟨c'', hc'', h''⟩ := h'.calls fs
    refine ⟨c'', ?_, ?_⟩
    · rw [DictionaryIndexCompiler.calls, hc']
      exact hc''
    · rw [List.append_assoc] at h''
      exact h''

/-! ## Compiling -/

/-- The loop adds the last entries of the runs that are not deleted. -/
theorem feed_eq : ∀ (keyValues : List KeyValue) (x : KeyValue) (generator : Generator),
    feed x keyValues generator =
      (((lastsFrom KeyValue.key x keyValues).filter fun e => !e.value.deleted).map
        fun e => (e.key, e.value)).foldl (fun g e => g.add e.1 e.2) generator
  | [], x, generator => by
    rw [feed, lastsFrom, addUnlessDeleted, List.filter_cons]
    cases x.value.deleted <;> rfl
  | y :: keyValues, x, generator => by
    rw [feed, lastsFrom]
    by_cases hxy : x.key = y.key
    · rw [if_pos hxy, if_pos hxy, feed_eq keyValues]
    · rw [if_neg hxy, if_neg hxy, feed_eq keyValues, addUnlessDeleted, List.filter_cons]
      cases x.value.deleted <;> rfl

theorem firsts_eq_self {l : List (Key × ValueHandle)} (hl : l.Pairwise fun a b => a.1 < b.1)
    {previous : Key} (hp : ∀ e ∈ l, previous ≠ e.1) : firsts Prod.fst previous l = l := by
  induction l generalizing previous with
  | nil => rfl
  | cons e l ih =>
    obtain ⟨he, hl⟩ := List.pairwise_cons.mp hl
    rw [firsts, if_neg (Ne.symm (hp e List.mem_cons_self)),
      ih hl fun x hx => (he x hx).ne]

/-- **What a sorted list compiles to.** -/
theorem feed_entries {x : KeyValue} {keyValues : List KeyValue}
    (hs : (x :: keyValues).Pairwise fun a b => a.key ≤ b.key)
    (hne : ∀ e ∈ x :: keyValues, e.key ≠ []) :
    (feed x keyValues Generator.new).entries.Pairwise (fun a b => a.1 < b.1) ∧
    ∀ k h, (k, h) ∈ (feed x keyValues Generator.new).entries ↔
      lastHandle (x :: keyValues) k = some h := by
  have hmem : ∀ e, e ∈ lastsFrom KeyValue.key x keyValues ↔
      (run KeyValue.key e.key (x :: keyValues)).getLast? = some e := fun e => mem_lastsFrom hs
  have hasc : (((lastsFrom KeyValue.key x keyValues).filter fun e => !e.value.deleted).map
      fun e => (e.key, e.value)).Pairwise fun a b => a.1 < b.1 :=
    List.pairwise_map.mpr ((lastsFrom_ascending hs).filter _)
  have hentries : (feed x keyValues Generator.new).entries =
      ((lastsFrom KeyValue.key x keyValues).filter fun e => !e.value.deleted).map
        fun e => (e.key, e.value) := by
    rw [feed_eq, Generator.foldl_add, firsts_eq_self hasc]
    · exact List.nil_append _
    · intro e he
      obtain ⟨y, hy, rfl⟩ := List.mem_map.mp he
      have hy' := (hmem y).mp (List.mem_filter.mp hy).1
      exact (hne y (mem_run.mp (List.mem_of_getLast? hy')).1).symm
  rw [hentries]
  refine ⟨hasc, fun k h => ?_⟩
  unfold lastHandle
  rw [Option.filter_eq_some_iff, Option.map_eq_some_iff, List.mem_map]
  constructor
  · rintro ⟨e, he, heq⟩
    obtain ⟨rfl, rfl⟩ := Prod.mk.inj heq
    obtain ⟨he, hdel⟩ := List.mem_filter.mp he
    exact ⟨⟨e, (hmem e).mp he, rfl⟩, hdel⟩
  · rintro ⟨⟨e, he, rfl⟩, hdel⟩
    have hk := (mem_run.mp (List.mem_of_getLast? he)).2
    refine ⟨e, List.mem_filter.mpr ⟨(hmem e).mpr ?_, hdel⟩, by rw [hk]⟩
    rw [hk]
    exact he

/-- **Compiling hands the map of the calls to the generator**: the keys strictly ascending, each with the
handle that was registered for the value of its last call. -/
theorem compile_calls {stableSort spinsort : List KeyValue → List KeyValue}
    (hstable : IsStableSort KeyValue.less stableSort) (hspin : IsStableSort KeyValue.less spinsort)
    (W : ValueStoreWriter V) (parallelSortThreshold : Nat) (fs : List (Call V))
    (hne : ∀ f ∈ fs, f.key ≠ []) :
    ∃ c g, (new W parallelSortThreshold).calls fs = .ok c ∧
      (c.compile stableSort spinsort).generator = some g ∧
      (c.compile stableSort spinsort).valueStore =
        (fs.foldl Written.apply (Written.empty : Written W)).valueStore ∧
      g.entries.Pairwise (fun a b => a.1 < b.1) ∧
      (∀ k h, (k, h) ∈ g.entries ↔
        (fs.foldl Written.apply (Written.empty : Written W)).map k = some h) ∧
      ∀ k h, (k, h) ∈ g.entries ↔
        ∃ before value after, fs = before ++ .add k value :: after ∧ (∀ f ∈ after, f.key ≠ k) ∧
          h = (W.registerValue
            (before.foldl Written.apply (Written.empty : Written W)).valueStore value).2 := by
  have hnew : Holds (new W parallelSortThreshold) Written.empty [] :=
    ⟨rfl, rfl, rfl, rfl⟩
  obtain ⟨c, hc, h⟩ := hnew.calls fs
  have hgen : c.generator.isSome = false := by rw [h.generator]; rfl
  have hkeys : ∀ e ∈ c.keyValues, e.key ≠ [] := by
    intro e he
    have hmem : e.key ∈ [] ++ fs.map Call.key := h.keys ▸ List.mem_map_of_mem he
    obtain ⟨f, hf, hfe⟩ := List.mem_map.mp hmem
    rw [← hfe]
    exact hne f hf
  -- Either sort keeps the calls of every key in order.
  have hsort : ∃ s, IsStableSort KeyValue.less s ∧ c.sort stableSort spinsort = s c.keyValues := by
    unfold sort
    split
    · exact ⟨spinsort, hspin, rfl⟩
    · exact ⟨stableSort, hstable, rfl⟩
  obtain ⟨s, hs, hsorted⟩ := hsort
  have hlast : ∀ k, lastHandle (s c.keyValues) k = lastHandle c.keyValues k := by
    intro k
    unfold lastHandle
    rw [hs.run_sort KeyValue.less_iff]
  have hle := hs.pairwise_le KeyValue.less_iff c.keyValues
  have hnonempty : ∀ e ∈ s c.keyValues, e.key ≠ [] := fun e he =>
    hkeys e ((hs.perm _).mem_iff.mp he)
  have hcompile : c.compile stableSort spinsort =
      match s c.keyValues with
      | [] => { c with generator := some Generator.new }
      | keyValue :: keyValues =>
        { c with generator := some (feed keyValue keyValues Generator.new), keyValues := [] } := by
    unfold compile
    rw [hgen, if_neg Bool.false_ne_true, hsorted]
  suffices hg : ∃ g, (c.compile stableSort spinsort).generator = some g ∧
      (c.compile stableSort spinsort).valueStore = c.valueStore ∧
      g.entries.Pairwise (fun a b => a.1 < b.1) ∧
      ∀ k v, (k, v) ∈ g.entries ↔ lastHandle c.keyValues k = some v by
    obtain ⟨g, hgenerator, hstore, hasc, hmem⟩ := hg
    rw [h.map] at hmem
    exact ⟨c, g, hc, hgenerator, hstore.trans h.valueStore, hasc, hmem, fun k v =>
      (hmem k v).trans (Written.map_eq_some_iff k v fs)⟩
  cases hl : s c.keyValues with
  | nil =>
    rw [hl] at hcompile
    refine ⟨Generator.new, by rw [hcompile], by rw [hcompile], .nil, fun k v => ?_⟩
    rw [← hlast, hl]
    simp [Generator.new, lastHandle, run]
  | cons x keyValues =>
    rw [hl] at hcompile hle hnonempty
    obtain ⟨hasc, hmem⟩ := feed_entries hle hnonempty
    refine ⟨_, by rw [hcompile], by rw [hcompile], hasc, fun k v => ?_⟩
    rw [hmem, ← hlast, hl]

/-- `61` is added, deleted and added again, `62` is added and deleted. -/
theorem compile_calls_addAndDeletes :
    let sort := List.insertionSort fun a b : KeyValue => a.key ≤ b.key
    let fs : List (Call Nat) :=
      [.add [97] 1, .delete [97], .delete [97], .add [97] 2, .add [98] 3, .delete [98]]
    IsStableSort KeyValue.less sort ∧ (∀ f ∈ fs, f.key ≠ []) ∧
    ∃ c g, (new plainStore 0).calls fs = .ok c ∧ (c.compile sort sort).generator = some g ∧
      (c.compile sort sort).valueStore =
        (fs.foldl Written.apply (Written.empty : Written plainStore)).valueStore ∧
      g.entries.Pairwise (fun a b => a.1 < b.1) ∧
      (∀ k h, (k, h) ∈ g.entries ↔
        (fs.foldl Written.apply (Written.empty : Written plainStore)).map k = some h) ∧
      ∀ k h, (k, h) ∈ g.entries ↔
        ∃ before value after, fs = before ++ .add k value :: after ∧ (∀ f ∈ after, f.key ≠ k) ∧
          h = (plainStore.registerValue
            (before.foldl Written.apply (Written.empty : Written plainStore)).valueStore value).2 :=
  ⟨isStableSort_insertionSort KeyValue.less_iff, by decide,
    compile_calls (isStableSort_insertionSort KeyValue.less_iff)
      (isStableSort_insertionSort KeyValue.less_iff) plainStore 0 _ (by decide)⟩

end DictionaryIndexCompiler

end Keyvi.Dictionary
