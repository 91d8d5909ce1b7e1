import Mathlib.Logic.Relation
import StackLang.Proofs.Compositional
import StackLang.Proofs.Declared

/-!
This module contains the order in which the sources of a program are read. Following the names that
sources give reaches every source that can be reached, each once, the nearest ones first.
-/

namespace StackLang

inductive ReachedIn (next : String → List String) (start : String) : Nat → String → Prop
  | start : ReachedIn next start 0 start
  | step {n : Nat} {a b : String} (h : ReachedIn next start n a) (hb : b ∈ next a) :
    ReachedIn next start (n + 1) b

/--
A list of what can be reached from `start` along `next`, each once, in the order in which it is
first seen when the entries of the list are followed one after the other.
-/
structure BreadthFirst (next : String → List String) (start : String) (order : List String) :
    Prop where
  nodup : order.Nodup
  reached : ∀ x, x ∈ order ↔ Relation.ReflTransGen (fun a b => b ∈ next a) start x
  seen : order = (start :: order.flatMap next).eraseDups
  /-- What stands earlier is not farther away. -/
  nearest : ∀ {i j : Nat} {x y : String}, i ≤ j → order[i]? = some x → order[j]? = some y →
    ∀ n, ReachedIn next start n y → ∃ m ≤ n, ReachedIn next start m x

section

variable {next : String → List String} {start : String} {order : List String}

theorem reflTransGen_of_reachedIn {n : Nat} {x : String} (h : ReachedIn next start n x) :
    Relation.ReflTransGen (fun a b => b ∈ next a) start x := by
  induction h with
  | start => exact .refl
  | step _ hb ih => exact ih.tail hb

theorem mem_of_reflTransGen (hseen : order = (start :: order.flatMap next).eraseDups) {x : String}
    (h : Relation.ReflTransGen (fun a b => b ∈ next a) start x) : x ∈ order := by
  induction h with
  | refl =>
    rw [hseen, List.mem_eraseDups]
    exact List.mem_cons_self
  | tail _ hb ih =>
    rw [hseen, List.mem_eraseDups]
    exact List.mem_cons_of_mem _ (List.mem_flatMap.mpr ⟨_, ih, hb⟩)

theorem lt_length_of_mem_left {a b : List String} (h : (a ++ b).Nodup) {j : Nat} {y : String}
    (hj : (a ++ b)[j]? = some y) (hy : y ∈ a) : j < a.length := by
  rcases Nat.lt_or_ge j a.length with hlt | hge
  · exact hlt
  · rw [List.getElem?_append_right hge] at hj
    exact absurd rfl ((List.nodup_append.mp h).2.2 y hy y (List.mem_of_getElem? hj))

theorem exists_append_of_seen (hseen : order = (start :: order.flatMap next).eraseDups) (k : Nat) :
    ∃ rest, order = (start :: (order.take k).flatMap next).eraseDups ++ rest := by
  have hsplit : start :: order.flatMap next =
      start :: (order.take k).flatMap next ++ (order.drop k).flatMap next := by
    rw [List.cons_append, ← List.flatMap_append, List.take_append_drop]
  rw [hsplit, List.eraseDups_append] at hseen
  exact ⟨_, hseen⟩

theorem seen_before (hnodup : order.Nodup)
    (hseen : order = (start :: order.flatMap next).eraseDups) {i j k : Nat} {x y : String}
    (hle : i ≤ j) (hi : order[i]? = some x) (hj : order[j]? = some y)
    (hy : y ∈ start :: (order.take k).flatMap next) :
    x ∈ start :: (order.take k).flatMap next := by
  obtain ⟨rest, hrest⟩ := exists_append_of_seen hseen k
  rw [← List.mem_eraseDups] at hy ⊢
  generalize (start :: (order.take k).flatMap next).eraseDups = first at hrest hy ⊢
  subst hrest
  have hlt := lt_length_of_mem_left hnodup hj hy
  rw [List.getElem?_append_left (by omega)] at hi
  exact List.mem_of_getElem? hi

theorem nearest_of_seen (hnodup : order.Nodup)
    (hseen : order = (start :: order.flatMap next).eraseDups) {i j : Nat} {x y : String}
    (hle : i ≤ j) (hi : order[i]? = some x) (hj : order[j]? = some y) {n : Nat}
    (h : ReachedIn next start n y) : ∃ m ≤ n, ReachedIn next start m x := by
  induction h generalizing i j x with
  | start =>
    have hx := seen_before hnodup hseen hle hi hj (k := 0) List.mem_cons_self
    rw [List.take_zero, List.flatMap_nil, List.mem_singleton] at hx
    exact ⟨0, Nat.le_refl 0, hx ▸ .start⟩
  | @step n a b ha hb ih =>
    -- everything up to `a` is at most `n` steps away, and `x` is seen from there
    obtain ⟨k, hk⟩ := List.mem_iff_getElem?.mp
      (mem_of_reflTransGen hseen (reflTransGen_of_reachedIn ha))
    have htake : (order.take (k + 1))[k]? = some a := by
      rw [List.getElem?_take_of_lt (by omega), hk]
    have hx := seen_before hnodup hseen hle hi hj
      (List.mem_cons_of_mem start (List.mem_flatMap.mpr ⟨a, List.mem_of_getElem? htake, hb⟩))
    rcases List.mem_cons.mp hx with rfl | hx
    · exact ⟨0, Nat.zero_le _, .start⟩
    · obtain ⟨c, hc, hx⟩ := List.mem_flatMap.mp hx
      obtain ⟨l, hl⟩ := List.mem_iff_getElem?.mp hc
      rw [List.getElem?_take] at hl
      split at hl
      · obtain ⟨m, hm, hreached⟩ := ih (by omega) hl hk
        exact ⟨m + 1, by omega, hreached.step hx⟩
      · simp at hl

end

namespace SourceUnit

def usedIds (u : SourceUnit) : List String := u.uses.map fun use => Source.withExtension use.2

end SourceUnit

namespace SourceTable

def usedIds (t : SourceTable) (id : String) : List String :=
  match t.find? id with
  | some text => SourceUnit.usedIds { id, text }
  | none => []

structure Holds (t : SourceTable) (u : SourceUnit) : Prop where
  text : t.find? u.id = some u.text
  internal : u.internal = false

theorem Holds.usedIds {t : SourceTable} {u : SourceUnit} (h : t.Holds u) :
    t.usedIds u.id = u.usedIds := by
  rcases u with ⟨id, text, internal⟩
  obtain rfl : internal = false := h.internal
  simp only [SourceTable.usedIds, h.text]

theorem holds_of_fetch {t : SourceTable} {name : String} {from? : Option String} {u : SourceUnit}
    (h : t.loader.fetch name from? = .ok u) : t.Holds u ∧ u.id = Source.withExtension name := by
  unfold Loader.fetch at h
  split at h
  · simp at h
  · next id hid =>
    have hkey : id = Source.withExtension name := by
      simp only [loader, resolve] at hid
      split at hid
      · exact (Except.ok.inj hid).symm
      · simp at hid
    split at h
    · simp at h
    · next text htext =>
      rw [← Except.ok.inj h]
      refine ⟨⟨?_, rfl⟩, hkey⟩
      simp only [loader, load] at htext
      split at htext
      · next found hfound => rw [hfound, Except.ok.inj htext]
      · simp at htext

end SourceTable

theorem Source.withExtension_ne_library (name : String) :
    Source.withExtension name ≠ Source.library.id := by
  intro h
  unfold Source.withExtension at h
  split at h
  · next hsome =>
    rw [h] at hsome
    exact absurd hsome (by decide +kernel)
  · have hlast := congrArg (·.toList.getLast?) h
    simp [Source.extension, Source.library] at hlast

namespace Front

/-- `g` is `f` with the units `us` of the table put into the queue, none of which had been there. -/
structure Grown (t : SourceTable) (f g : Front) (us : List SourceUnit) : Prop where
  queue : g.queue = f.queue ++ us
  visited : g.visited = f.visited ++ us.map (·.id)
  nodup : f.visited.Nodup → g.visited.Nodup
  held : ∀ u ∈ us, t.Holds u

theorem Grown.refl (t : SourceTable) (f : Front) : Grown t f f [] :=
  ⟨by simp, by simp, id, by simp⟩

theorem Grown.trans {t : SourceTable} {f g h : Front} {us vs : List SourceUnit}
    (hfg : Grown t f g us) (hgh : Grown t g h vs) : Grown t f h (us ++ vs) where
  queue := by rw [hgh.queue, hfg.queue, List.append_assoc]
  visited := by rw [hgh.visited, hfg.visited, List.map_append, List.append_assoc]
  nodup hf := hgh.nodup (hfg.nodup hf)
  held := by
    intro u hu
    rcases List.mem_append.mp hu with hu | hu
    · exact hfg.held u hu
    · exact hgh.held u hu

theorem grown_enqueue {t : SourceTable} (f : Front) {u : SourceUnit} (hu : t.Holds u) :
    ∃ us, Grown t f (f.enqueue u) us := by
  unfold enqueue
  split
  · exact ⟨[], Grown.refl t f⟩
  · next hfresh =>
    refine ⟨[u], rfl, rfl, ?_, by simpa using hu⟩
    intro hnodup
    rw [List.nodup_append]
    refine ⟨hnodup, by simp, ?_⟩
    intro a ha b hb
    rw [List.mem_singleton.mp hb]
    exact fun h => hfresh (h ▸ ha)

theorem grown_settle (t : SourceTable) (from? : Option String) (f : Front) (r : Report) :
    ∃ us, Grown t f (settle (fun name => t.loader.fetch name from?) f r) us := by
  cases r with
  | fault e => exact ⟨[], by simp [settle], by simp [settle], id, by simp⟩
  | use loc name =>
    simp only [settle]
    cases hfetch : t.loader.fetch name from? with
    | error e => exact ⟨[], by simp [accept], by simp [accept], id, by simp⟩
    | ok u => exact grown_enqueue f (SourceTable.holds_of_fetch hfetch).1

theorem grown_foldl_settle (t : SourceTable) (from? : Option String) (f : Front)
    (reports : List Report) :
    ∃ us, Grown t f (reports.foldl (settle fun name => t.loader.fetch name from?) f) us := by
  induction reports generalizing f with
  | nil => exact ⟨[], Grown.refl t f⟩
  | cons r rs ih =>
    obtain ⟨us, hus⟩ := grown_settle t from? f r
    obtain ⟨vs, hvs⟩ := ih (settle _ f r)
    exact ⟨us ++ vs, hus.trans hvs⟩

theorem grown_step (t : SourceTable) (f : Front) (u : SourceUnit) :
    ∃ us, Grown t f (step t.loader f u) us := by
  obtain ⟨us, hus⟩ := grown_foldl_settle t (some u.id) { f with program := (u.read f.program).1 }
    (u.read f.program).2
  exact ⟨us, hus.queue, hus.visited, hus.nodup, hus.held⟩

theorem eraseDups_concat (l : List String) (a : String) :
    (l ++ [a]).eraseDups = if a ∈ l then l.eraseDups else l.eraseDups ++ [a] := by
  rw [List.eraseDups_append]
  split
  · next h => simp [List.removeAll, h]
  · next h => simp [List.removeAll, h, List.eraseDups_cons]

theorem visited_foldl_settle {t : SourceTable} {from? : Option String} {ahead : List String}
    {uses : List (Location × String)} {f : Front} {l : List String}
    (h : ((uses.map fun use => Report.use use.1 use.2).foldl
      (settle fun name => t.loader.fetch name from?) f).errors = [])
    (hahead : ∀ name, Source.withExtension name ∉ ahead)
    (hvisited : f.visited = ahead ++ l.eraseDups) :
    ((uses.map fun use => Report.use use.1 use.2).foldl
      (settle fun name => t.loader.fetch name from?) f).visited =
      ahead ++ (l ++ uses.map fun use => Source.withExtension use.2).eraseDups := by
  induction uses generalizing f l with
  | nil => simpa using hvisited
  | cons use uses ih =>
    rw [List.map_cons, List.foldl_cons] at h ⊢
    rw [List.map_cons, List.append_cons l]
    apply ih h
    have hfirst := (errors_of_foldl_settle h).1
    simp only [settle] at hfirst ⊢
    cases hfetch : t.loader.fetch use.2 from? with
    | error e => simp [hfetch, accept] at hfirst
    | ok u =>
      obtain ⟨-, hid⟩ := SourceTable.holds_of_fetch hfetch
      have hmem : u.id ∈ f.visited ↔ Source.withExtension use.2 ∈ l := by
        simp [hvisited, hid, hahead use.2]
      simp only [accept, enqueue, hmem, eraseDups_concat]
      split
      · exact hvisited
      · rw [hvisited, hid, List.append_assoc]

theorem errors_of_step {loader : Loader} {f : Front} {u : SourceUnit}
    (h : (step loader f u).errors = []) :
    f.errors = [] ∧ Declaration.Faultless (u.read f.program).2 := by
  unfold step at h
  obtain ⟨hf, hok⟩ := errors_of_foldl_settle h
  exact ⟨hf, hok⟩

theorem visited_step {t : SourceTable} {ahead l : List String} {f : Front} {u : SourceUnit}
    (h : (step t.loader f u).errors = []) (hahead : ∀ name, Source.withExtension name ∉ ahead)
    (hvisited : f.visited = ahead ++ l.eraseDups) :
    (step t.loader f u).visited = ahead ++ (l ++ u.usedIds).eraseDups := by
  have hok := (errors_of_step h).2
  unfold step at h ⊢
  simp only [(SourceUnit.read_of_faultless hok).1] at h ⊢
  exact visited_foldl_settle h hahead hvisited

inductive Reads (loader : Loader) : Front → List SourceUnit → Front → Prop
  | done {f : Front} (h : f.queue = []) : Reads loader f [] f
  | read {f g : Front} {u : SourceUnit} {us units : List SourceUnit} (h : f.queue = u :: us)
    (hrest : Reads loader (step loader { f with queue := us } u) units g) :
    Reads loader f (u :: units) g

theorem exists_reads (loader : Loader) (f : Front) :
    ∃ units, Reads loader f units (f.run loader) := by
  fun_induction Front.run loader f with
  | case1 f hqueue => exact ⟨[], .done hqueue⟩
  | case2 f u us hqueue hlt ih =>
    obtain ⟨units, hunits⟩ := ih
    exact ⟨u :: units, .read hqueue hunits⟩

theorem Reads.nodup {t : SourceTable} {f g : Front} {units : List SourceUnit}
    (h : Reads t.loader f units g) {before : List SourceUnit} (hnodup : f.visited.Nodup)
    (hvisited : f.visited = (before ++ f.queue).map (·.id)) :
    ((before ++ units).map (·.id)).Nodup := by
  induction h generalizing before with
  | done hqueue =>
    rw [← hqueue, ← hvisited]
    exact hnodup
  | @read f g u us units hqueue hrest ih =>
    obtain ⟨vs, hvs⟩ := grown_step t { f with queue := us } u
    rw [List.append_cons]
    apply ih (hvs.nodup hnodup)
    rw [hvs.visited, hvs.queue, hvisited, hqueue]
    simp

theorem Reads.program {loader : Loader} {f g : Front} {units : List SourceUnit}
    (h : Reads loader f units g) :
    g.program = units.foldl (fun p u => (u.read p).1) f.program := by
  induction h with
  | done hqueue => rfl
  | read hqueue hrest ih =>
    rw [ih, List.foldl_cons]
    simp only [step, program_foldl_settle]

theorem Reads.errors {loader : Loader} {f g : Front} {units : List SourceUnit}
    (h : Reads loader f units g) (herrors : g.errors = []) : f.errors = [] := by
  induction h with
  | done hqueue => exact herrors
  | read hqueue hrest ih => exact (errors_of_step (ih herrors)).1

theorem Reads.heads {loader : Loader} {f g : Front} {units : List SourceUnit}
    (h : Reads loader f units g) (herrors : g.errors = []) :
    g.program.functions.map Function.head =
      f.program.functions.map Function.head ++ units.flatMap SourceUnit.heads := by
  induction h with
  | done hqueue => simp
  | @read f g u us units hqueue hrest ih =>
    have hok := (errors_of_step (hrest.errors herrors)).2
    rw [ih herrors, List.flatMap_cons, ← List.append_assoc,
      ← (SourceUnit.read_of_faultless hok).2]
    simp only [step, program_foldl_settle]

/--
The sources have been followed from `start`: the units of `before` have been read, apart from what
is read `ahead`, and the units that they lead to wait.
-/
structure Follows (t : SourceTable) (ahead : List String) (start : String)
    (before : List SourceUnit) (f : Front) : Prop where
  visited : f.visited = ahead ++ (before ++ f.queue).map (·.id)
  seen : f.visited = ahead ++ (start :: before.flatMap SourceUnit.usedIds).eraseDups
  held : ∀ u ∈ before ++ f.queue, t.Holds u
  reached : ∀ u ∈ before ++ f.queue, Relation.ReflTransGen (fun a b => b ∈ t.usedIds a) start u.id

section

variable {t : SourceTable} {ahead : List String} {start : String}

theorem Follows.step (hahead : ∀ name, Source.withExtension name ∉ ahead)
    {before us : List SourceUnit} {f : Front} {u : SourceUnit} (h : Follows t ahead start before f)
    (hqueue : f.queue = u :: us)
    (herrors : (Front.step t.loader { f with queue := us } u).errors = []) :
    Follows t ahead start (before ++ [u]) (Front.step t.loader { f with queue := us } u) := by
  obtain ⟨vs, hvs⟩ := grown_step t { f with queue := us } u
  have hall : before ++ [u] ++ (Front.step t.loader { f with queue := us } u).queue =
      before ++ f.queue ++ vs := by
    rw [hvs.queue, hqueue]
    simp
  have hvisited := visited_step herrors hahead h.seen
  refine ⟨?_, ?_, ?_, ?_⟩
  · rw [hall, hvs.visited, List.map_append, ← List.append_assoc, ← h.visited]
  · rw [hvisited, List.flatMap_append]
    simp
  · rw [hall]
    intro v hv
    rcases List.mem_append.mp hv with hv | hv
    · exact h.held v hv
    · exact hvs.held v hv
  · rw [hall]
    intro v hv
    rcases List.mem_append.mp hv with hv | hv
    · exact h.reached v hv
    · -- what is new in the queue is named by `u`
      have hu : u ∈ before ++ f.queue := by simp [hqueue]
      refine (h.reached u hu).tail ?_
      rw [(h.held u hu).usedIds]
      rw [hvs.visited, h.seen, List.eraseDups_append, ← List.append_assoc,
        List.append_cancel_left_eq] at hvisited
      have hid : v.id ∈ vs.map (·.id) := List.mem_map_of_mem hv
      rw [hvisited, List.mem_eraseDups] at hid
      exact List.mem_of_mem_filter hid

theorem Follows.reads (hahead : ∀ name, Source.withExtension name ∉ ahead)
    {before units : List SourceUnit} {f g : Front} (h : Follows t ahead start before f)
    (hreads : Reads t.loader f units g) (herrors : g.errors = []) :
    Follows t ahead start (before ++ units) g ∧ g.queue = [] := by
  induction hreads generalizing before with
  | done hqueue =>
    rw [List.append_nil]
    exact ⟨h, hqueue⟩
  | @read f g u us units hqueue hrest ih =>
    rw [List.append_cons]
    exact ih (h.step hahead hqueue (hrest.errors herrors)) herrors

theorem Follows.breadthFirst {units : List SourceUnit} {f : Front}
    (h : Follows t ahead start units f) (hqueue : f.queue = []) (hnodup : f.visited.Nodup) :
    BreadthFirst t.usedIds start (units.map (·.id)) := by
  have hvisited := h.visited
  rw [hqueue, List.append_nil] at hvisited
  have hids : units.flatMap SourceUnit.usedIds = (units.map (·.id)).flatMap t.usedIds := by
    rw [List.flatMap_map]
    apply List.flatMap_congr
    intro u hu
    exact ((h.held u (by simp [hu])).usedIds).symm
  have hseen : units.map (·.id) =
      (start :: (units.map (·.id)).flatMap t.usedIds).eraseDups := by
    have := h.seen
    rw [hvisited, hids, List.append_cancel_left_eq] at this
    exact this
  have hnodup : (units.map (·.id)).Nodup := by
    rw [hvisited] at hnodup
    exact (List.nodup_append.mp hnodup).2.1
  refine ⟨hnodup, ?_, hseen, ?_⟩
  · intro x
    constructor
    · intro hx
      obtain ⟨u, hu, rfl⟩ := List.mem_map.mp hx
      exact h.reached u (by simp [hu])
    · exact mem_of_reflTransGen hseen
  · intro i j x y hle hi hj n hn
    exact nearest_of_seen hnodup hseen hle hi hj hn

end

end Front

def Source.unitsAhead (library : Bool) : List SourceUnit := if library then [Source.library] else []

theorem Source.withExtension_notMem_unitsAhead (library : Bool) (name : String) :
    Source.withExtension name ∉ (Source.unitsAhead library).map (·.id) := by
  cases library with
  | false => simp [unitsAhead]
  | true => simpa [unitsAhead] using withExtension_ne_library name

namespace Front

theorem visited_initial (library : Bool) (start : SourceUnit) :
    (initial library start).visited = (initial library start).queue.map (·.id) := by
  cases library <;> simp [initial, enqueue]

theorem step_of_reports_eq_nil (loader : Loader) {f : Front} {u : SourceUnit}
    (h : (u.read f.program).2 = []) :
    step loader f u = { f with program := (u.read f.program).1 } := by
  simp only [step, h, List.foldl_nil]

theorem step_library (loader : Loader) {f : Front} {us : List SourceUnit}
    (h : f.program = {}) : step loader { f with queue := us } Source.library =
      { f with queue := us, program := (Source.library.read f.program).1 } := by
  apply step_of_reports_eq_nil
  simpa only [h, Source.ahead] using Source.reports_ahead true

/-- The library names no source, so that what follows starts from the source given. -/
theorem exists_follows_initial {t : SourceTable} {library : Bool} {start : SourceUnit}
    (hstart : t.Holds start) {units : List SourceUnit} {g : Front}
    (h : Reads t.loader (initial library start) units g) :
    ∃ files f, units = Source.unitsAhead library ++ files ∧ Reads t.loader f files g ∧
      Follows t ((Source.unitsAhead library).map (·.id)) start.id [] f := by
  have hvisited := visited_initial library start
  have hqueue := queue_initial library start
  have hprogram := program_initial library start
  rw [hqueue] at hvisited
  generalize initial library start = f at *
  -- only `start` waits, and nothing of the table has been read
  have hfollows : ∀ f : Front, f.queue = [start] →
      f.visited = (Source.unitsAhead library ++ [start]).map (·.id) →
      Follows t ((Source.unitsAhead library).map (·.id)) start.id [] f := by
    intro f hqueue hvisited
    rw [List.map_append] at hvisited
    refine ⟨?_, ?_, ?_, ?_⟩
    · rw [hvisited, hqueue]
      rfl
    · rw [hvisited]
      simp [List.eraseDups_cons]
    · rw [hqueue]
      simpa using hstart
    · rw [hqueue]
      simpa using Relation.ReflTransGen.refl
  cases library with
  | false => exact ⟨units, f, rfl, h, hfollows f hqueue hvisited⟩
  | true =>
    cases h with
    | done hnil => simp [hqueue] at hnil
    | @read _ _ u us files hcons hrest =>
      rw [hqueue] at hcons
      obtain ⟨rfl, rfl⟩ := List.cons.inj hcons
      rw [step_library t.loader hprogram] at hrest
      exact ⟨files, _, rfl, hrest, hfollows _ rfl hvisited⟩

end Front

inductive Program.Reads (loader : Loader) (library : Bool) (entry : String) :
    List SourceUnit → Except (List SyntaxError) Program → Prop
  | missing {e : SourceError} (h : loader.fetch entry none = .error e) :
    Reads loader library entry [] (.error [Front.startError entry e])
  | found {start : SourceUnit} {units : List SourceUnit} {g : Front}
    (h : loader.fetch entry none = .ok start)
    (hreads : Front.Reads loader (Front.initial library start) units g) :
    Reads loader library entry units g.finish

theorem Front.finish_eq_ok {f : Front} {p : Program} (h : f.finish = .ok p) :
    f.errors = [] ∧ f.program = p := by
  unfold Front.finish at h
  simp only at h
  split at h
  · next hempty =>
    rw [List.isEmpty_iff, List.append_eq_nil_iff] at hempty
    exact ⟨hempty.1, Except.ok.inj h⟩
  · simp at h

theorem Front.exists_reads_of_parse {loader : Loader} {entry : String} {options : Options}
    {p : Program} (h : parse loader entry options = .ok p) :
    ∃ start units g, loader.fetch entry none = .ok start ∧
      Reads loader (initial options.library start) units g ∧ g.errors = [] ∧ g.program = p := by
  have hread := read_of_parse h
  unfold Program.read at hread
  split at hread
  · simp at hread
  · next start hstart =>
    obtain ⟨units, hunits⟩ := exists_reads loader (initial options.library start)
    obtain ⟨herrors, hprogram⟩ := finish_eq_ok hread
    exact ⟨start, units, _, hstart, hunits, herrors, hprogram⟩

theorem Front.nodup_visited_initial (library : Bool) {start : SourceUnit} {entry : String}
    (hid : start.id = Source.withExtension entry) : (initial library start).visited.Nodup := by
  rw [visited_initial, queue_initial]
  cases library with
  | false => simp
  | true => simpa [hid] using (Source.withExtension_ne_library entry).symm

theorem Front.breadthFirst_of_finish {t : SourceTable} {library : Bool} {start : SourceUnit}
    (hstart : t.Holds start) {units : List SourceUnit} {g : Front} {p : Program}
    (hreads : Reads t.loader (initial library start) units g)
    (hnodup : (units.map (·.id)).Nodup) (hfinish : g.finish = .ok p) :
    ∃ files, units = Source.unitsAhead library ++ files ∧ (∀ u ∈ files, t.Holds u) ∧
      BreadthFirst t.usedIds start.id (files.map (·.id)) ∧
      p = units.foldl (fun p u => (u.read p).1) {} ∧
      p.functions.map Function.head = units.flatMap SourceUnit.heads := by
  obtain ⟨herrors, rfl⟩ := finish_eq_ok hfinish
  obtain ⟨files, f, rfl, hfiles, hfollows⟩ := exists_follows_initial hstart hreads
  obtain ⟨hend, hqueue⟩ :=
    hfollows.reads (Source.withExtension_notMem_unitsAhead library) hfiles herrors
  rw [List.nil_append] at hend
  have hprogram := hreads.program
  have hheads := hreads.heads herrors
  rw [program_initial] at hprogram hheads
  refine ⟨files, rfl, ?_, ?_, hprogram, hheads⟩
  · intro u hu
    exact hend.held u (by simp [hu])
  · apply hend.breadthFirst hqueue
    rw [hend.visited, hqueue, List.append_nil, ← List.map_append]
    exact hnodup

/--
However the sources of a table name each other, reading ends and reads none twice. If it succeeds it
has read what can be reached, breadth first, and the functions stand in the order of the sources.
-/
theorem sources_are_read_breadth_first (t : SourceTable) (library : Bool) (entry : String) :
    ∃ units, Program.Reads t.loader library entry units (Program.read t.loader library entry) ∧
      (units.map (·.id)).Nodup ∧
      ∀ p, Program.read t.loader library entry = .ok p → ∃ files,
        units = Source.unitsAhead library ++ files ∧ (∀ u ∈ files, t.Holds u) ∧
        BreadthFirst t.usedIds (Source.withExtension entry) (files.map (·.id)) ∧
        p = units.foldl (fun p u => (u.read p).1) {} ∧
        p.functions.map Function.head = units.flatMap SourceUnit.heads ∧
        ∀ (i : Nat) (f : Function), p.functions[i]? = some f → f.entry = i := by
  cases hfetch : t.loader.fetch entry none with
  | error e =>
    have hread : Program.read t.loader library entry = .error [Front.startError entry e] := by
      simp only [Program.read, hfetch]
    rw [hread]
    exact ⟨[], .missing hfetch, by simp, by simp⟩
  | ok start =>
    have hread : Program.read t.loader library entry =
        ((Front.initial library start).run t.loader).finish := by
      simp only [Program.read, hfetch]
    obtain ⟨hstart, hid⟩ := SourceTable.holds_of_fetch hfetch
    obtain ⟨units, hunits⟩ := Front.exists_reads t.loader (Front.initial library start)
    have hnodup := hunits.nodup (Front.nodup_visited_initial library hid)
      ((Front.visited_initial library start).trans (by rw [List.nil_append]))
    rw [List.nil_append] at hnodup
    refine ⟨units, hread ▸ .found hfetch hunits, hnodup, ?_⟩
    intro p hp
    rw [hread] at hp
    obtain ⟨files, hahead, hheld, horder, hprogram, hheads⟩ :=
      Front.breadthFirst_of_finish hstart hunits hnodup hp
    rw [← hid]
    refine ⟨files, hahead, hheld, horder, hprogram, hheads, ?_⟩
    intro i f hf
    rw [← hread] at hp
    exact ((Program.wellRead_of_read hp).1 i f hf).entry

def ring : SourceTable :=
  SourceTable.ofList [
    ("b", "using \"main.cin\" fn g ( ) using a"),
    ("main", "using a fn main ( ) using b using main"),
    ("a.cin", "fn f ( ) using \"b\" using a.cin using main"),
    ("c", "using main fn h ( )")]

theorem sources_are_read_breadth_first_ring :
    ∃ (p : Program) (files : List SourceUnit), Program.read ring.loader false "main" = .ok p ∧
      BreadthFirst ring.usedIds "main.cin" (files.map (·.id)) ∧
      p.functions.map Function.head = files.flatMap SourceUnit.heads ∧
      p.functions.map (fun f => (f.loc.file, f.name)) =
        [("main.cin", "main"), ("a.cin", "f"), ("b.cin", "g")] := by
  have hnames : (Program.read ring.loader false "main").toOption.map
      (·.functions.map fun f => (f.loc.file, f.name)) =
      some [("main.cin", "main"), ("a.cin", "f"), ("b.cin", "g")] := by
    decide +kernel
  obtain ⟨units, -, -, hunits⟩ := sources_are_read_breadth_first ring false "main"
  cases hread : Program.read ring.loader false "main" with
  | error e => simp [hread, Except.toOption] at hnames
  | ok p =>
    obtain ⟨files, hfiles, -, horder, -, hheads, -⟩ := hunits p hread
    rw [hfiles] at hheads
    rw [hread] at hnames
    have hentry : Source.withExtension "main" = "main.cin" := by decide +kernel
    rw [hentry] at horder
    exact ⟨p, files, rfl, horder, hheads, Option.some.inj hnames⟩

end StackLang
