import StackLang.Declaration
import StackLang.Source.Prelude

/-!
This module contains the reading of a whole program. Sources wait in a queue: the library first,
then the source that the compilation starts from, then every source that one of them names. A
source is read once however often it is named.
-/

namespace StackLang

structure Front where
  program : Program := {}
  errors : List SyntaxError := []
  queue : List SourceUnit := []
  /-- The identities of the sources read or in the queue. -/
  visited : List String := []

namespace Front

def enqueue (f : Front) (u : SourceUnit) : Front :=
  if u.id ∈ f.visited then f
  else { f with queue := f.queue ++ [u], visited := f.visited ++ [u.id] }

def accept (f : Front) (loc : Location) : Except SourceError SourceUnit → Front
  | .ok u => f.enqueue u
  | .error e => { f with errors := f.errors ++ [⟨loc, .source e⟩] }

def settle (fetch : String → Except SourceError SourceUnit) (f : Front) : Report → Front
  | .fault e => { f with errors := f.errors ++ [e] }
  | .use loc name => f.accept loc (fetch name)

/-- Reads the source `u`, which has left the queue. -/
def step (loader : Loader) (f : Front) (u : SourceUnit) : Front :=
  let (program, reports) := u.read f.program
  reports.foldl (settle fun name => loader.fetch name (some u.id)) { f with program }

/-- How many identities are still to be visited, and how many sources wait. -/
def remaining (loader : Loader) (f : Front) : Nat :=
  (loader.ids.filter (· ∉ f.visited)).length + f.queue.length

theorem length_filter_visit_lt {ids visited : List String} {id : String} (mem : id ∈ ids)
    (fresh : id ∉ visited) :
    (ids.filter (· ∉ visited ++ [id])).length < (ids.filter (· ∉ visited)).length := by
  have eq : ids.filter (· ∉ visited ++ [id]) = (ids.filter (· ∉ visited)).filter (· ≠ id) := by
    rw [List.filter_filter]
    congr 1
    funext x
    simp [and_comm]
  rw [eq]
  refine List.length_filter_lt_length_iff_exists.mpr ⟨id, ?_, ?_⟩
  · simpa using ⟨mem, fresh⟩
  · simp

theorem remaining_enqueue_le {loader : Loader} (f : Front) {u : SourceUnit}
    (mem : u.id ∈ loader.ids) : (f.enqueue u).remaining loader ≤ f.remaining loader := by
  unfold enqueue
  split
  · exact Nat.le_refl _
  · next fresh =>
    have := length_filter_visit_lt mem fresh
    simp only [remaining, List.length_append, List.length_cons, List.length_nil]
    omega

theorem remaining_settle_le (loader : Loader) (from? : Option String) (f : Front) (r : Report) :
    (settle (fun name => loader.fetch name from?) f r).remaining loader ≤ f.remaining loader := by
  cases r with
  | fault => exact Nat.le_refl _
  | use loc name =>
    simp only [settle]
    cases h : loader.fetch name from? with
    | ok u => exact remaining_enqueue_le f (Loader.fetch_id_mem h)
    | error => exact Nat.le_refl _

theorem remaining_foldl_settle_le (loader : Loader) (from? : Option String) (f : Front)
    (reports : List Report) :
    (reports.foldl (settle fun name => loader.fetch name from?) f).remaining loader ≤
      f.remaining loader := by
  induction reports generalizing f with
  | nil => exact Nat.le_refl _
  | cons r rs ih => exact Nat.le_trans (ih _) (remaining_settle_le ..)

theorem remaining_step_lt (loader : Loader) (f : Front) (u : SourceUnit) (us : List SourceUnit)
    (h : f.queue = u :: us) :
    (step loader { f with queue := us } u).remaining loader < f.remaining loader := by
  refine Nat.lt_of_le_of_lt (remaining_foldl_settle_le ..) ?_
  simp [remaining, h]

def run (loader : Loader) (f : Front) : Front :=
  match h : f.queue with
  | [] => f
  | u :: us =>
    have := remaining_step_lt loader f u us h
    run loader (step loader { f with queue := us } u)
termination_by f.remaining loader

def unknownWords (p : Program) : List SyntaxError :=
  p.functions.flatMap fun f => f.code.filterMap fun i =>
    match i.op with
    | .word name =>
      if (p.candidates name).isEmpty then some ⟨i.loc, .unknownWord name⟩ else none
    | _ => none

def finish (f : Front) : Except (List SyntaxError) Program :=
  let errors := f.errors ++ unknownWords f.program
  if errors.isEmpty then .ok f.program else .error errors

def initial (library : Bool) (start : SourceUnit) : Front :=
  let f : Front := {}
  let f := if library then f.enqueue Source.library else f
  { f with queue := f.queue ++ [start], visited := f.visited ++ [start.id] }

def startError (entry : String) (e : SourceError) : SyntaxError :=
  ⟨Location.start entry, .source e⟩

end Front

def Program.read (loader : Loader) (library : Bool) (entry : String) :
    Except (List SyntaxError) Program :=
  match loader.fetch entry none with
  | .error e => .error [Front.startError entry e]
  | .ok start => ((Front.initial library start).run loader).finish

end StackLang
