import Mathlib.Data.List.Basic
import Peephole.Arena
import Peephole.Proofs.Bookkeeping.Script

/-!
# Chains of nodes

Lines stand in an arena when their nodes lead from each of them to the next and back,
the head leads to the first, and no other node is live.  Such a chain can be cut and
joined again, and a new node can be linked into it anywhere; what is linked before and
after the place stays as it is.
-/

namespace Peephole

namespace Line

/-- Where some lines start, or what follows if there are none. -/
def start (next : Option Nat) : List Line → Option Nat
  | [] => next
  | line :: _ => some line.position

/-- Where some lines end, or what comes before if there are none. -/
def finish (previous : Option Nat) : List Line → Option Nat
  | [] => previous
  | line :: rest => finish (some line.position) rest

theorem start_append (next : Option Nat) (left right : List Line) :
    start next (left ++ right) = start (start next right) left := by
  cases left <;> rfl

theorem finish_append (previous : Option Nat) (left right : List Line) :
    finish previous (left ++ right) = finish (finish previous left) right := by
  induction left generalizing previous with
  | nil => rfl
  | cons line rest ih => exact ih (some line.position)

theorem finish_concat (previous : Option Nat) (lines : List Line) (last : Line) :
    finish previous (lines ++ [last]) = some last.position :=
  finish_append previous lines [last]

theorem mem_of_finish_eq_some {lines : List Line} {position : Nat}
    (hfinish : finish none lines = some position) : position ∈ lines.map Line.position := by
  rcases List.eq_nil_or_concat' lines with rfl | ⟨front, last, rfl⟩
  · cases hfinish
  · rw [finish_concat] at hfinish
    cases hfinish
    simp

theorem mem_of_start_eq_some {lines : List Line} {position : Nat}
    (hstart : start none lines = some position) : position ∈ lines.map Line.position := by
  cases lines with
  | nil => cases hstart
  | cons line rest =>
      cases hstart
      exact List.mem_cons_self

end Line

namespace Arena

/-- The nodes of some lines lead from one to the next and back, with given positions
before the first and after the last. -/
def Linked (nodes : Array Node) (next : Option Nat) : Option Nat → List Line → Prop
  | _, [] => True
  | previous, line :: rest =>
      nodes[line.position]? = some ⟨line.instruction, previous, Line.start next rest, true⟩ ∧
        Linked nodes next (some line.position) rest

variable {nodes nodes' : Array Node} {previous next : Option Nat}
variable {before window after lines : List Line}

theorem linked_append {left right : List Line} :
    Linked nodes next previous (left ++ right) ↔
      Linked nodes (Line.start next right) previous left ∧
        Linked nodes next (Line.finish previous left) right := by
  induction left generalizing previous with
  | nil => simp [Linked, Line.finish]
  | cons line rest ih =>
      rw [List.cons_append, Linked, Linked, ih, Line.start_append, and_assoc]
      rfl

/-- Only the nodes of the lines themselves matter. -/
theorem Linked.congr (hlinked : Linked nodes next previous lines)
    (hnodes : ∀ position ∈ lines.map Line.position, nodes'[position]? = nodes[position]?) :
    Linked nodes' next previous lines := by
  induction lines generalizing previous with
  | nil => trivial
  | cons line rest ih =>
      obtain ⟨hline, hrest⟩ := hlinked
      obtain ⟨hfirst, hothers⟩ := List.forall_mem_cons.mp hnodes
      exact ⟨hfirst.trans hline, ih hrest hothers⟩

/-- A position holds a node that was not taken out. -/
def Live (arena : Arena) (position : Nat) : Prop :=
  arena.nodes[position]?.any Node.live = true

theorem Linked.live {arena : Arena} (hlinked : Linked arena.nodes next previous lines)
    {position : Nat} (hposition : position ∈ lines.map Line.position) :
    arena.Live position := by
  induction lines generalizing previous with
  | nil => cases hposition
  | cons line rest ih =>
      obtain ⟨hline, hrest⟩ := hlinked
      rcases List.mem_cons.mp hposition with rfl | hposition
      · rw [Live, hline]
        rfl
      · exact ih hrest hposition

theorem Live.lt_size {arena : Arena} {position : Nat} (hlive : arena.Live position) :
    position < arena.nodes.size := by
  obtain ⟨_, hnode, -⟩ := (Option.any_eq_true _ _).mp hlive
  exact (Array.getElem?_eq_some_iff.mp hnode).1

/-- The live nodes of an arena are those of some lines, linked in their order. -/
structure Holds (arena : Arena) (lines : List Line) : Prop where
  head : arena.head = Line.start none lines
  linked : Linked arena.nodes none none lines
  live : ∀ position, arena.Live position → position ∈ lines.map Line.position
  length : arena.length = lines.length
  distinct : (lines.map Line.position).Nodup

/-! ## Changing single nodes -/

section

variable {arena : Arena} {position other : Nat} {change : Node → Node}

theorem getElem?_adjust (arena : Arena) (position other : Nat) (change : Node → Node) :
    (arena.adjust position change).nodes[other]? =
      if position = other then arena.nodes[other]?.map change else arena.nodes[other]? :=
  Array.getElem?_modify

theorem live_adjust (hchange : ∀ node, (change node).live = node.live) :
    (arena.adjust position change).Live other ↔ arena.Live other := by
  rw [Live, Live, getElem?_adjust]
  split
  · rw [Option.any_map]
    simp only [hchange]
  · rfl

theorem live_retire :
    (arena.retire position).Live other ↔ arena.Live other ∧ position ≠ other := by
  rw [Live, Live, retire]
  simp only [getElem?_adjust]
  split
  · cases arena.nodes[other]? <;> simp_all
  · simp_all

theorem getElem?_retire_of_ne (hne : position ≠ other) :
    (arena.retire position).nodes[other]? = arena.nodes[other]? := by
  rw [retire, getElem?_adjust, if_neg hne]

@[simp]
theorem size_adjust : (arena.adjust position change).nodes.size = arena.nodes.size :=
  Array.size_modify

@[simp]
theorem size_setNext : (arena.setNext next previous).nodes.size = arena.nodes.size := by
  cases previous <;> simp [setNext]

@[simp]
theorem size_setPrevious : (arena.setPrevious previous next).nodes.size = arena.nodes.size := by
  cases next <;> simp [setPrevious]

@[simp]
theorem length_setNext : (arena.setNext next previous).length = arena.length := by
  cases previous <;> rfl

@[simp]
theorem length_setPrevious : (arena.setPrevious previous next).length = arena.length := by
  cases next <;> rfl

@[simp]
theorem labels_setNext : (arena.setNext next previous).labels = arena.labels := by
  cases previous <;> rfl

@[simp]
theorem labels_setPrevious : (arena.setPrevious previous next).labels = arena.labels := by
  cases next <;> rfl

@[simp]
theorem head_setPrevious : (arena.setPrevious previous next).head = arena.head := by
  cases next <;> rfl

@[simp]
theorem live_setNext : (arena.setNext next previous).Live position ↔ arena.Live position := by
  cases previous with
  | none => rfl
  | some _ => exact live_adjust fun _ => rfl

@[simp]
theorem live_setPrevious :
    (arena.setPrevious previous next).Live position ↔ arena.Live position := by
  cases next with
  | none => rfl
  | some _ => exact live_adjust fun _ => rfl

theorem getElem?_setNext_of_ne (hne : previous ≠ some position) :
    (arena.setNext next previous).nodes[position]? = arena.nodes[position]? := by
  cases previous with
  | none => rfl
  | some other =>
      rw [setNext, getElem?_adjust, if_neg fun heq => hne (congrArg some heq)]

theorem getElem?_setPrevious_of_ne (hne : next ≠ some position) :
    (arena.setPrevious previous next).nodes[position]? = arena.nodes[position]? := by
  cases next with
  | none => rfl
  | some other =>
      rw [setPrevious, getElem?_adjust, if_neg fun heq => hne (congrArg some heq)]

end

/-! ## Joining chains -/

section

variable {arena : Arena} {old : Option Nat}

/-- The last of some lines, or the head, is made to lead elsewhere. -/
theorem linked_setNext (hlinked : Linked arena.nodes old none before)
    (hdistinct : (before.map Line.position).Nodup) (next : Option Nat) :
    Linked (arena.setNext next (Line.finish none before)).nodes next none before := by
  rcases List.eq_nil_or_concat' before with rfl | ⟨front, last, rfl⟩
  · trivial
  · obtain ⟨hfront, hlast, -⟩ := linked_append.mp hlinked
    rw [List.map_append, List.nodup_append] at hdistinct
    rw [Line.finish_concat, linked_append]
    refine ⟨hfront.congr fun position hposition => getElem?_setNext_of_ne ?_, ?_, trivial⟩
    · rintro ⟨rfl⟩
      exact hdistinct.2.2 _ hposition _ List.mem_cons_self rfl
    · rw [setNext, getElem?_adjust, if_pos rfl, hlast]
      rfl

theorem head_setNext (hhead : arena.head = Line.start old before) (next : Option Nat) :
    (arena.setNext next (Line.finish none before)).head = Line.start next before := by
  rcases List.eq_nil_or_concat' before with rfl | ⟨front, last, rfl⟩
  · rfl
  · rw [Line.finish_concat, setNext, adjust]
    dsimp only
    rw [hhead]
    cases front <;> rfl

/-- The first of some lines is made to lead back elsewhere. -/
theorem linked_setPrevious (hlinked : Linked arena.nodes next old after)
    (hdistinct : (after.map Line.position).Nodup) (previous : Option Nat) :
    Linked (arena.setPrevious previous (Line.start none after)).nodes next previous after := by
  cases after with
  | nil => trivial
  | cons first rest =>
      obtain ⟨hfirst, hrest⟩ := hlinked
      obtain ⟨hnot, -⟩ := List.nodup_cons.mp hdistinct
      constructor
      · rw [Line.start, setPrevious, getElem?_adjust, if_pos rfl, hfirst]
        rfl
      · refine hrest.congr fun position hposition => getElem?_setPrevious_of_ne ?_
        rintro ⟨rfl⟩
        exact hnot hposition

/-- The last of some lines is made to lead on elsewhere, and the first of others to lead
back elsewhere. -/
theorem linked_relink {old old' : Option Nat} (hbefore : Linked arena.nodes old none before)
    (hafter : Linked arena.nodes none old' after)
    (hdistinct : ((before ++ after).map Line.position).Nodup) (next previous : Option Nat) :
    let relinked := (arena.setNext next (Line.finish none before)).setPrevious previous
      (Line.start none after)
    Linked relinked.nodes next none before ∧ Linked relinked.nodes none previous after := by
  rw [List.map_append, List.nodup_append] at hdistinct
  obtain ⟨hfront, hback, hapart⟩ := hdistinct
  constructor
  · refine (linked_setNext hbefore hfront next).congr fun position hposition =>
      getElem?_setPrevious_of_ne fun hstart => ?_
    exact hapart position hposition position (Line.mem_of_start_eq_some hstart) rfl
  · refine linked_setPrevious (hafter.congr fun position hposition =>
      getElem?_setNext_of_ne fun hfinish => ?_) hback previous
    exact hapart position (Line.mem_of_finish_eq_some hfinish) position hposition rfl

end

/-! ## Cutting -/

section

variable {arena : Arena} {positions : List Nat} {position : Nat}

theorem getElem?_retireAll (hposition : position ∉ positions) :
    (positions.foldl retire arena).nodes[position]? = arena.nodes[position]? := by
  induction positions generalizing arena with
  | nil => rfl
  | cons first rest ih =>
      obtain ⟨hfirst, hrest⟩ := not_or.mp (mt List.mem_cons.mpr hposition)
      rw [List.foldl_cons, ih hrest, getElem?_retire_of_ne (Ne.symm hfirst)]

theorem live_retireAll :
    (positions.foldl retire arena).Live position ↔ arena.Live position ∧ position ∉ positions := by
  induction positions generalizing arena with
  | nil => simp
  | cons first rest ih =>
      rw [List.foldl_cons, ih, live_retire, List.mem_cons, not_or, and_assoc, ne_comm]

theorem retireAll_frame (arena : Arena) (positions : List Nat) :
    (positions.foldl retire arena).length = arena.length - positions.length ∧
      (positions.foldl retire arena).nodes.size = arena.nodes.size ∧
      (positions.foldl retire arena).head = arena.head ∧
      (positions.foldl retire arena).labels = arena.labels := by
  induction positions generalizing arena with
  | nil => exact ⟨rfl, rfl, rfl, rfl⟩
  | cons first rest ih =>
      obtain ⟨hlength, hsize, hhead, hlabels⟩ := ih (arena.retire first)
      refine ⟨?_, hsize.trans size_adjust, hhead, hlabels⟩
      rw [List.foldl_cons, hlength, List.length_cons, retire]
      dsimp only
      omega

theorem size_cut (arena : Arena) (positions : List Nat) (previous next : Option Nat) :
    (arena.cut positions previous next).nodes.size = arena.nodes.size := by
  rw [cut, size_setPrevious, size_setNext]
  exact (retireAll_frame arena positions).2.1

theorem labels_cut (arena : Arena) (positions : List Nat) (previous next : Option Nat) :
    (arena.cut positions previous next).labels = arena.labels := by
  rw [cut, labels_setPrevious, labels_setNext]
  exact (retireAll_frame arena positions).2.2.2

/-- Taking out lines that follow each other leaves the others linked. -/
theorem Holds.cut (hholds : arena.Holds (before ++ window ++ after)) :
    (arena.cut (window.map Line.position) (Line.finish none before)
      (Line.start none after)).Holds (before ++ after) := by
  obtain ⟨hhead, hlinked, hlive, hlength, hdistinct⟩ := hholds
  rw [linked_append, linked_append] at hlinked
  obtain ⟨⟨hbefore, -⟩, hafter⟩ := hlinked
  obtain ⟨hretired, -, hheads, -⟩ := retireAll_frame arena (window.map Line.position)
  have hkept : ((before ++ after).map Line.position).Nodup := by
    refine hdistinct.sublist (List.Sublist.map _ ?_)
    simp [List.append_sublist_append_left]
  rw [List.map_append, List.map_append, List.nodup_append, List.nodup_append] at hdistinct
  constructor
  · rw [Arena.cut, head_setPrevious, head_setNext, Line.start_append]
    rw [hheads, hhead, List.append_assoc, Line.start_append]
  · refine linked_append.mpr
      (linked_relink (hbefore.congr fun position hposition => getElem?_retireAll ?_)
        (hafter.congr fun position hposition => getElem?_retireAll ?_) hkept _ _)
    · exact fun hmem => hdistinct.1.2.2 position hposition position hmem rfl
    · exact fun hmem => hdistinct.2.2 position (List.mem_append_right _ hmem) position hposition rfl
  · intro position hposition
    rw [Arena.cut, live_setPrevious, live_setNext, live_retireAll] at hposition
    have hmem := hlive position hposition.1
    simp only [List.map_append, List.mem_append] at hmem ⊢
    grind
  · rw [Arena.cut, length_setPrevious, length_setNext, hretired, hlength, List.length_map]
    simp only [List.length_append]
    omega
  · exact hkept

end

/-! ## Linking new nodes -/

section

variable {arena : Arena} {node : Node} {position : Nat}

theorem getElem?_allocate_of_lt (hlt : position < arena.nodes.size) :
    (arena.allocate node).nodes[position]? = arena.nodes[position]? := by
  rw [allocate, Array.getElem?_push, if_neg (Nat.ne_of_lt hlt)]

theorem getElem?_allocate_size : (arena.allocate node).nodes[arena.nodes.size]? = some node :=
  Array.getElem?_push_size

theorem live_allocate (hlive : (arena.allocate node).Live position) :
    arena.Live position ∨ position = arena.nodes.size := by
  have hlt : position < arena.nodes.size + 1 := by
    simpa [allocate] using hlive.lt_size
  rcases Nat.lt_succ_iff_lt_or_eq.mp hlt with hlt | heq
  · rw [Live, getElem?_allocate_of_lt hlt] at hlive
    exact .inl hlive
  · exact .inr heq

theorem Holds.follower_finish (hholds : arena.Holds (before ++ after)) :
    arena.follower (Line.finish none before) = Line.start none after := by
  rcases List.eq_nil_or_concat' before with rfl | ⟨front, last, rfl⟩
  · exact hholds.head
  · obtain ⟨-, hlast, -⟩ := linked_append.mp (linked_append.mp hholds.linked).1
    rw [Line.finish_concat, follower, hlast]
    rfl

/-- A new node stands between those that it is linked between. -/
theorem Holds.link (hholds : arena.Holds (before ++ after)) (instruction : Instruction) :
    (arena.link (Line.finish none before) instruction).Holds
      (before ++ ⟨arena.nodes.size, instruction⟩ :: after) := by
  have hfollower := hholds.follower_finish
  obtain ⟨hhead, hlinked, hlive, hlength, hdistinct⟩ := hholds
  have hlt : ∀ position ∈ (before ++ after).map Line.position, position < arena.nodes.size :=
    fun position hposition => (hlinked.live hposition).lt_size
  have hnew : arena.nodes.size ∉ (before ++ after).map Line.position :=
    fun hmem => Nat.lt_irrefl _ (hlt _ hmem)
  rw [List.map_append, List.mem_append, not_or] at hnew
  rw [Arena.link, hfollower]
  constructor
  · rw [head_setPrevious, head_setNext, Line.start_append]
    · rfl
    · exact hhead.trans (Line.start_append _ _ _)
  · have hallocated : Linked (arena.allocate ⟨instruction, Line.finish none before,
        Line.start none after, true⟩).nodes none none (before ++ after) :=
      hlinked.congr fun position hposition => getElem?_allocate_of_lt (hlt position hposition)
    obtain ⟨hbefore, hafter⟩ := linked_append.mp hallocated
    have hrelinked := linked_relink hbefore hafter hdistinct (some arena.nodes.size)
      (some arena.nodes.size)
    refine linked_append.mpr ⟨hrelinked.1, ?_, hrelinked.2⟩
    rw [getElem?_setPrevious_of_ne fun hstart => hnew.2 (Line.mem_of_start_eq_some hstart),
      getElem?_setNext_of_ne fun hfinish => hnew.1 (Line.mem_of_finish_eq_some hfinish)]
    exact getElem?_allocate_size
  · intro position hposition
    rw [live_setPrevious, live_setNext] at hposition
    rcases live_allocate hposition with hposition | rfl
    · have hmem := hlive position hposition
      simp only [List.map_append, List.map_cons, List.mem_append, List.mem_cons] at hmem ⊢
      tauto
    · simp
  · rw [length_setPrevious, length_setNext, allocate]
    simp only [hlength, List.length_append, List.length_cons]
    omega
  · rw [List.map_append, List.nodup_append] at hdistinct ⊢
    simp only [List.map_cons, List.nodup_cons, List.mem_cons]
    grind

theorem insert_eq (arena : Arena) (previous : Option Nat) (instruction : Instruction) :
    arena.insert previous instruction =
      { arena.link previous instruction with
        labels := arena.labels.settle [⟨arena.nodes.size, instruction⟩] } := by
  have hlabels : (arena.link previous instruction).labels = arena.labels := by
    rw [link, labels_setPrevious, labels_setNext]
    rfl
  rw [insert, LabelTable.settle, List.foldl_cons, List.foldl_nil]
  cases hlabel : instruction.label? with
  | none =>
      dsimp only
      rw [← hlabels]
  | some id =>
      dsimp only
      rw [hlabels]

theorem size_insert (arena : Arena) (previous : Option Nat) (instruction : Instruction) :
    (arena.insert previous instruction).nodes.size = arena.nodes.size + 1 := by
  rw [insert_eq]
  simp [link, allocate]

/-- New nodes stand one behind the other, and labels among them are moved there. -/
theorem Holds.insertAll (hholds : arena.Holds (before ++ after)) (code : List Instruction) :
    let inserted := arena.insertAll (Line.finish none before) code
    inserted.Holds (before ++ Line.number arena.nodes.size code ++ after) ∧
      inserted.nodes.size = arena.nodes.size + code.length ∧
      inserted.labels = arena.labels.settle (Line.number arena.nodes.size code) := by
  induction code generalizing arena before with
  | nil =>
      rw [Line.number, List.append_nil]
      exact ⟨hholds, rfl, rfl⟩
  | cons instruction rest ih =>
      have hinserted : (arena.insert (Line.finish none before) instruction).Holds
          (before ++ [⟨arena.nodes.size, instruction⟩] ++ after) := by
        obtain ⟨hhead, hlinked, hlive, hlength, hdistinct⟩ := hholds.link instruction
        rw [insert_eq, List.append_assoc]
        exact ⟨hhead, hlinked, hlive, hlength, hdistinct⟩
      obtain ⟨hall, hsize, hlabels⟩ := ih hinserted
      rw [Line.finish_concat, size_insert] at hall hsize hlabels
      refine ⟨?_, ?_, ?_⟩
      · rwa [List.append_assoc before, List.singleton_append] at hall
      · rw [Arena.insertAll, hsize, List.length_cons]
        omega
      · rw [Arena.insertAll, hlabels, insert_eq]
        rfl

/-- Following the nodes gives the positions of the lines. -/
theorem gather_start (hlinked : Linked arena.nodes none previous lines) (width : Nat) :
    arena.gather width (Line.start none lines) =
      ((lines.take width).map Line.position, Line.start none (lines.drop width)) := by
  induction lines generalizing previous width with
  | nil => cases width <;> rfl
  | cons line rest ih =>
      cases width with
      | zero => rfl
      | succ width =>
          obtain ⟨hline, hrest⟩ := hlinked
          rw [Line.start, gather, follower, hline]
          dsimp only [Option.bind_some]
          rw [ih hrest width]
          rfl

end

end Arena

end Peephole
