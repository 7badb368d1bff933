import FeedbackQueue.Listing.Console
import FeedbackQueue.Proofs.Clipping
import FeedbackQueue.Proofs.Defects
import FeedbackQueue.Proofs.Listings

/-!
# Printing under a limit

A listing is printed in many small writes, and each of them can fail.  The programs that make these
writes print the pieces of the listing (`Table.printProcesses_eq`, `Table.printChains_eq`), whatever
the table; on a table in order the pieces are those of a text, and a text that does not fit is cut
off at its first character that is refused.  So no failure of a write gets lost, and none makes a
listing shorter than it has to be.

## Main definitions

* `Printer.pieces` : the program that prints pieces.
* `Printer.Prints` : a program prints a text, on sinks of every size.
* `Written.CutsOff` : a text, or the longest part of it that fits.

## Main statements

* `Printer.on_text` : a text on a sink with a limit.
* `Printer.output_pieces` : what comes of pieces is what is written of them.
* `Table.prints_of_audit` : listings under a limit.
-/

namespace FeedbackQueue

theorem toList_pushn (s : String) (c : Char) (n : Nat) :
    (s.pushn c n).toList = s.toList ++ List.replicate n c := by
  rw [String.pushn_eq_repeat_push]
  induction n with
  | zero => simp [Nat.repeat]
  | succ n ih => simp [Nat.repeat, ih, List.replicate_succ']

/-- Without a limit a text is written, and under a limit the longest part of it that fits; it is
complete just if nothing is left. -/
structure Written.CutsOff (w : Option Nat → Except Fault Written) (s : String) : Prop where
  /-- Without a limit. -/
  whole : w none = .ok { text := s, complete := true }
  /-- Where there is room for some bytes. -/
  under : ∀ room, ∃ part, Truncates room part s ∧
    w (some room) = .ok { text := part, complete := decide (s.utf8ByteSize ≤ room) }

namespace Printer

variable {α β : Type} {s : String} {p : Printer Unit}

/-- Print pieces, each computed when its turn comes. -/
def pieces (ps : List Piece) : Printer Unit := forM ps fun piece => do
  let s ← compute piece
  text s

/-! ### Texts -/

theorem text_append (a b : String) : text (a ++ b) = (do text a; text b) := by
  rw [text, String.toList_append, List.forM_append]
  rfl

theorem text_pushn (s : String) (c : Char) (n : Nat) :
    text (s.pushn c n) = (do text s; pad c n) := by
  rw [text, toList_pushn, List.forM_append]
  rfl

theorem seconds_eq (ticks : Nat) : seconds ticks = text (secondsText ticks) := by
  have hempty : text "" = pure () := rfl
  simp only [seconds, secondsText, text_append, text_pushn, hempty, bind_assoc, pure_bind]

theorem padded_eq (width : Nat) (s : String) : padded width s = text (padTo width s) := by
  rw [padded, padTo, text_pushn]

theorem pair_eq (a : Nat) (b : Int) : pair a b = text (pairText a b) := by
  simp only [pair, pairText, text_append, bind_assoc]
  rfl

theorem print_eq (s : Summary) : s.print = text s.line := by
  simp only [Summary.print, Summary.line, text_append, seconds_eq, padded_eq,
    String.intercalate_cons_cons, String.intercalate_singleton, bind_assoc]

/-! ### Pieces -/

theorem pieces_cons (piece : Piece) (ps : List Piece) : pieces (piece :: ps) = (do
    let s ← compute piece
    text s
    pieces ps) := by
  rw [pieces, List.forM_cons, bind_assoc]
  rfl

theorem pieces_ok_cons (s : String) (ps : List Piece) :
    pieces (.ok s :: ps) = (do text s; pieces ps) :=
  pieces_cons _ _

theorem pieces_singleton (s : String) : pieces [.ok s] = text s := by
  rw [pieces_ok_cons]
  exact bind_pure _

theorem pieces_append (ps qs : List Piece) : pieces (ps ++ qs) = (do pieces ps; pieces qs) :=
  List.forM_append

theorem pieces_flatMap (xs : List α) (f : α → List Piece) :
    pieces (xs.flatMap f) = forM xs fun x => pieces (f x) := by
  induction xs with
  | nil => rfl
  | cons x xs ih => rw [List.flatMap_cons, pieces_append, ih, List.forM_cons]

theorem pieces_if (selected : Bool) (ps : List Piece) :
    pieces (if selected then ps else []) = when selected (pieces ps) := by
  cases selected <;> rfl

/-- Computing a value and printing it is printing a piece. -/
theorem compute_print (r : Except Fault α) {show' : α → String} {print : α → Printer Unit}
    (h : ∀ a, print a = text (show' a)) :
    (do let a ← compute r; print a) = (do let s ← compute (return show' (← r)); text s) := by
  cases r with
  | error f => rfl
  | ok a => exact h a

/-- Items with arrows between them. -/
theorem chain_eq {item : α → Except Fault (Printer Unit)} {piece : α → Piece}
    (h : ∀ x, item x = text <$> piece x) (xs : List α) :
    chain item xs = pieces (arrows (xs.map piece)) := by
  -- from the second item on there are arrows
  have hrest : ∀ (xs : List α) (k : Nat), forM (xs.zipIdx (k + 1)) (link item) =
      pieces ((xs.map piece).map fun piece => return "->" ++ (← piece)) := by
    intro xs
    induction xs with
    | nil => exact fun _ => rfl
    | cons x xs ih =>
      intro k
      rw [List.zipIdx_cons, List.forM_cons, ih (k + 1), List.map_cons, List.map_cons, pieces_cons]
      simp only [link, h x, if_pos (Nat.succ_pos k)]
      cases piece x with
      | error f => rfl
      | ok s =>
        change (do text "->"; text s) >>= _ = (text ("->" ++ s) >>= _)
        rw [text_append]
  cases xs with
  | nil => rfl
  | cons x xs =>
    rw [chain, List.zipIdx_cons, List.forM_cons, hrest xs 0, List.map_cons, arrows, pieces_cons]
    simp only [link, h x]
    cases piece x <;> rfl

/-! ### Sinks -/

section Sinks

variable {taken : List Char} {room : Nat} {cs : List Char}

theorem on_bind (p : Printer α) (k : α → Printer β) (s : Sink) : (p >>= k).on s = (do
    let (result, s) ← p.on s
    match result with
    | .ok a => (k a).on s
    | .error e => return (.error e, s)) := by
  rw [on, ExceptT.run_bind, StateT.run_bind]
  refine bind_congr fun ⟨result, s⟩ => ?_
  cases result <;> rfl

/-- A character that fits. -/
theorem on_char_of_le {c : Char} (h : c.utf8Size ≤ room) :
    (char c).on { room := some room, taken } =
      .ok (.ok (), { room := some (room - c.utf8Size), taken := taken ++ [c] }) := by
  change Except.ok (Sink.offer _ c) = _
  rw [Sink.offer, if_pos ⟨rfl, by simpa using h⟩]
  rfl

/-- A character that does not fit. -/
theorem on_char_of_lt {c : Char} (h : room < c.utf8Size) :
    (char c).on { room := some room, taken } =
      .ok (.error .refused, { room := some room, taken, refused := [c] }) := by
  change Except.ok (Sink.offer _ c) = _
  rw [Sink.offer, if_neg fun htakes => Nat.not_le.2 h (htakes.2 room rfl)]
  rfl

/-- A text on a sink with a limit: what fits is taken, and the next character is the only one to be
refused. -/
theorem on_forM_char : (forM cs char : Printer Unit).on { room := some room, taken } =
    .ok (if (String.ofList cs).utf8ByteSize ≤ room then .ok () else .error .refused,
      { room := some (room - (String.ofList (clip room cs)).utf8ByteSize)
        taken := taken ++ clip room cs
        refused := (cs.drop (clip room cs).length).take 1 }) := by
  induction cs generalizing room taken with
  | nil => simp [clip]; rfl
  | cons c cs ih =>
    rw [List.forM_cons, on_bind]
    by_cases hc : c.utf8Size ≤ room
    · rw [on_char_of_le hc, clip_of_le hc, utf8ByteSize_ofList_cons, utf8ByteSize_ofList_cons]
      change (forM cs char : Printer Unit).on _ = _
      rw [ih]
      have hfits : c.utf8Size + (String.ofList cs).utf8ByteSize ≤ room ↔
          (String.ofList cs).utf8ByteSize ≤ room - c.utf8Size := by omega
      simp only [hfits, Nat.sub_sub, List.append_assoc, List.singleton_append, List.length_cons,
        List.drop_succ_cons]
    · have hlt := Nat.lt_of_not_le hc
      rw [on_char_of_lt hlt, clip_of_lt hlt, utf8ByteSize_ofList_cons, if_neg (by omega)]
      simp
      rfl

theorem on_text (s : String) : (text s).on { room := some room, taken } =
    .ok (if s.utf8ByteSize ≤ room then .ok () else .error .refused,
      { room := some (room - (String.ofList (clip room s.toList)).utf8ByteSize)
        taken := taken ++ clip room s.toList
        refused := (s.toList.drop (clip room s.toList).length).take 1 }) := by
  rw [text, on_forM_char, String.ofList_toList]

/-- A text on a sink without a limit. -/
theorem on_text_none (s : String) : (text s).on { room := none, taken } =
    .ok (.ok (), { room := none, taken := taken ++ s.toList }) := by
  rw [text]
  induction s.toList generalizing taken with
  | nil => simp; rfl
  | cons c cs ih =>
    have hc : (char c).on { room := none, taken } =
        .ok (.ok (), { room := none, taken := taken ++ [c] }) := rfl
    rw [List.forM_cons, on_bind, hc]
    change (forM cs char : Printer Unit).on _ = _
    rw [ih, List.append_assoc, List.singleton_append]

/-! ### Outputs -/

/-- After a text that fits the program goes on. -/
theorem output_text_of_le (h : s.utf8ByteSize ≤ room) :
    (do text s; p).output { room := some room, taken } =
      p.output { room := some (room - s.utf8ByteSize), taken := taken ++ s.toList } := by
  have hclip : clip room s.toList = s.toList := clip_eq_self (by rwa [String.ofList_toList])
  rw [output, on_bind, on_text, if_pos h, hclip, String.ofList_toList, List.drop_length]
  rfl

/-- At a text that does not fit the program ends. -/
theorem output_text_of_lt (h : room < s.utf8ByteSize) :
    (do text s; p).output { room := some room, taken } =
      .ok { text := String.ofList (taken ++ clip room s.toList), complete := false } := by
  rw [output, on_bind, on_text, if_neg (Nat.not_le.2 h)]
  rfl

theorem output_text_none : (do text s; p).output { room := none, taken } =
    p.output { room := none, taken := taken ++ s.toList } := by
  rw [output, on_bind, on_text_none]
  rfl

/-- Pieces where there is room for some bytes, after something has been taken. -/
theorem output_pieces_some (ps : List Piece) : (pieces ps).output { room := some room, taken } = (do
    let written ← Written.within room ps
    return { written with text := String.ofList taken ++ written.text }) := by
  induction ps generalizing room taken with
  | nil =>
    change Except.ok _ = Except.ok _
    rw [String.append_empty]
    rfl
  | cons piece ps ih =>
    rw [pieces_cons, Written.within]
    cases piece with
    | error f => rfl
    | ok s =>
      change (do text s; pieces ps).output _ =
        ((if s.utf8ByteSize ≤ room then _ else _ : Except Fault Written) >>= _)
      by_cases hs : s.utf8ByteSize ≤ room
      · rw [output_text_of_le hs, ih, if_pos hs, bind_assoc]
        simp only [pure_bind, String.ofList_append, String.ofList_toList, String.append_assoc]
      · rw [output_text_of_lt (Nat.lt_of_not_le hs), if_neg hs, String.ofList_append]
        rfl

/-- Pieces where there is room for all of them, after something has been taken. -/
theorem output_pieces_none (ps : List Piece) : (pieces ps).output { room := none, taken } = (do
    let written ← Written.whole ps
    return { written with text := String.ofList taken ++ written.text }) := by
  induction ps generalizing taken with
  | nil =>
    change Except.ok _ = Except.ok _
    simp
    rfl
  | cons piece ps ih =>
    rw [pieces_cons, Written.whole, List.mapM_cons]
    cases piece with
    | error f => rfl
    | ok s =>
      change (do text s; pieces ps).output _ = _
      rw [output_text_none, ih, Written.whole]
      cases ps.mapM id with
      | error f => rfl
      | ok texts =>
        change Except.ok _ = Except.ok _
        simp only [String.join_cons, String.ofList_append, String.ofList_toList,
          String.append_assoc]

/-- **Pieces come out as they are written under a limit.** -/
theorem output_pieces (ps : List Piece) (limit : Option Nat) :
    (pieces ps).output { room := limit } = Written.under limit ps := by
  have hnothing : ∀ r : Except Fault Written, (do
      let written ← r
      return { written with text := String.ofList [] ++ written.text }) = r := by
    intro r
    cases r <;> simp
  cases limit with
  | some room => exact (output_pieces_some ps).trans (hnothing _)
  | none => exact (output_pieces_none ps).trans (hnothing _)

end Sinks

/-! ### What is printed -/

/-- A program prints a text: all of it where there is no limit, and the longest part that fits where
there is one.  The program fails just if something is left of the text; then it has offered one more
character, and nothing after that. -/
structure Prints (p : Printer Unit) (s : String) : Prop where
  /-- Without a limit. -/
  whole : p.on { room := none } = .ok (.ok (), { room := none, taken := s.toList })
  /-- Where there is room for some bytes. -/
  under : ∀ room, ∃ part sink, Truncates room part s ∧
    p.on { room := some room } =
      .ok (if s.utf8ByteSize ≤ room then .ok () else .error .refused, sink) ∧
    sink.taken = part.toList ∧ sink.refused = (s.toList.drop part.toList.length).take 1

theorem prints_text (s : String) : (text s).Prints s where
  whole := on_text_none s
  under room := by
    refine ⟨_, _, truncates_clip room s, on_text s, ?_, ?_⟩
    · rw [String.toList_ofList]
      rfl
    · rw [String.toList_ofList]

/-- What comes of a program that prints a text. -/
theorem Prints.cutsOff (h : p.Prints s) :
    Written.CutsOff (fun limit => p.output { room := limit }) s where
  whole := by
    rw [output, h.whole]
    change Except.ok _ = _
    rw [String.ofList_toList]
    rfl
  under room := by
    obtain ⟨part, sink, hpart, hon, htaken, -⟩ := h.under room
    refine ⟨part, hpart, ?_⟩
    rw [output, hon]
    change Except.ok _ = _
    rw [htaken, String.ofList_toList]
    split <;> simp_all [Except.isOk, Except.toBool]

/-- Pieces that can all be computed are the pieces of a text. -/
theorem exists_pieces_eq_text {ps : List Piece} (h : ∀ piece ∈ ps, Ends piece) :
    ∃ s, pieces ps = text s := by
  induction ps with
  | nil => exact ⟨"", rfl⟩
  | cons piece ps ih =>
    obtain ⟨hpiece, hps⟩ := List.forall_mem_cons.1 h
    obtain ⟨a, rfl⟩ := hpiece
    obtain ⟨b, hb⟩ := ih hps
    exact ⟨a ++ b, by rw [pieces_ok_cons, hb, text_append]⟩

theorem exists_prints_pieces {ps : List Piece} (h : ∀ piece ∈ ps, Ends piece) :
    ∃ s, (pieces ps).Prints s := by
  obtain ⟨s, hs⟩ := exists_pieces_eq_text h
  exact ⟨s, hs ▸ prints_text s⟩

end Printer

open Printer

namespace Table

variable {P : Params} (t : Table P)

theorem printProcesses_eq (now : Nat) (held : Bool) :
    t.printProcesses now held = pieces (if held then busyNotice else t.processList now) := by
  cases held with
  | true => exact (pieces_singleton _).symm
  | false =>
    change _ = pieces (t.processList now)
    rw [processList, pieces_ok_cons, pieces, List.forM_map]
    refine bind_congr fun _ => ?_
    congr 1
    funext p
    exact compute_print _ print_eq

theorem printLevel_eq (level : Nat) (c : Chain) :
    t.printLevel level c = pieces (t.levelLine level c) := by
  have hitem : ∀ i, (do let p ← t.process i; return pair p.pid p.budget : Except Fault _) =
      text <$> (do let p ← t.process i; return pairText p.pid p.budget) := by
    intro i
    simp only [pair_eq, map_bind, map_pure]
  rw [printLevel, levelLine, List.cons_append, pieces_ok_cons, pieces_append, pieces_singleton,
    chain_eq hitem]
  change _ = (do text (toString level ++ ": "); _)
  rw [text_append, bind_assoc]

theorem printReady_eq : t.printReady = pieces t.readyLines := by
  rw [printReady, readyLines, pieces_ok_cons, pieces_flatMap]
  simp only [printLevel_eq]

theorem printFree_eq : t.printFree = pieces t.freeLine := by
  rw [freeLine, pieces_singleton, printFree]
  change _ = text ("Free List Size: " ++ toString t.unused.len ++ " processes\n")
  rw [text_append, text_append, bind_assoc]

theorem printSleeping_eq : t.printSleeping = pieces t.sleepingLines := by
  have hitem : ∀ i, (return text (toString (← t.process i).pid) : Except Fault _) =
      text <$> (return toString (← t.process i).pid) := by
    intro i
    simp only [map_bind, map_pure]
  rw [printSleeping, sleepingLines, List.cons_append, pieces_ok_cons, pieces_append,
    pieces_singleton, chain_eq hitem]

theorem printZombie_eq : t.printZombie = pieces t.zombieLines := by
  have hitem : ∀ i, (do let p ← t.process i; return pair p.pid (← t.parentPid p) :
      Except Fault _) =
      text <$> (do let p ← t.process i; return pairText p.pid (← t.parentPid p)) := by
    intro i
    simp only [pair_eq, map_bind, map_pure]
  rw [printZombie, zombieLines, List.cons_append, pieces_ok_cons, pieces_append,
    pieces_singleton, chain_eq hitem]

theorem printChains_eq (which : Selection) :
    t.printChains which = pieces (t.chainList which) := by
  simp only [printChains, chainList, pieces_append, pieces_if, printReady_eq, printFree_eq,
    printSleeping_eq, printZombie_eq, bind_assoc]

/-! ### Listings under a limit -/

/-- A listing of all processes is what its program prints. -/
theorem dump_eq_output (now : Nat) (held : Bool) (limit : Option Nat) :
    t.dump now held limit = (t.printProcesses now held).output { room := limit } := by
  rw [printProcesses_eq, output_pieces, dump]

/-- A listing of chains is what its program prints. -/
theorem dumpChains_eq_output (which : Selection) (limit : Option Nat) :
    t.dumpChains which limit = (t.printChains which).output { room := limit } := by
  rw [printChains_eq, output_pieces, dumpChains]

/-- On a table that passes its audit walks do not leave the table. -/
theorem confined_of_audit {t : Table P} (haudit : t.audit = .ok ()) : t.Confined := by
  intro place c hc i hi
  -- without slots a walk makes no step, wherever its chain may begin
  have hcap : 0 < P.capacity :=
    Nat.lt_of_lt_of_le (List.length_pos_of_mem hi) (t.links.length_follow_le _ c.head)
  exact (intact_of_audit hcap haudit).sound.1.confined place c hc i hi

/-- **Listings are cut off where they do not fit.**  On a table that passes its audit and whose
parents are all in range, every listing has a text.  Under a limit the longest part that fits is
printed, the listing fails just if something is left, and after the first character that is refused
nothing more is printed. -/
theorem prints_of_audit {t : Table P} (haudit : t.audit = .ok ()) (hclosed : t.Closed) :
    (∀ now held, ∃ s, (t.printProcesses now held).Prints s ∧ Written.CutsOff (t.dump now held) s) ∧
    ∀ which, ∃ s, (t.printChains which).Prints s ∧ Written.CutsOff (t.dumpChains which) s := by
  refine ⟨fun now held => ?_, fun which => ?_⟩
  · have hends : ∀ piece ∈ if held then busyNotice else t.processList now, Ends piece := by
      cases held with
      | true => exact List.forall_mem_singleton.2 .ok
      | false => exact hclosed.ends_of_mem_processList
    obtain ⟨s, hs⟩ := exists_prints_pieces hends
    rw [← printProcesses_eq] at hs
    exact ⟨s, hs, funext (t.dump_eq_output now held) ▸ hs.cutsOff⟩
  · have hends := hclosed.ends_of_mem_chainList (confined_of_audit haudit) which
    obtain ⟨s, hs⟩ := exists_prints_pieces hends
    rw [← printChains_eq] at hs
    exact ⟨s, hs, funext (t.dumpChains_eq_output which) ▸ hs.cutsOff⟩

/-- A runnable process with a name of three bytes, and a child of it that has exited. -/
def twoSlots : Table ⟨2, 0, 1, 1, 1, true⟩ where
  procs := #v[{ pid := 1, stage := .runnable, name := "é1" },
    { pid := 2, stage := .zombie, parent := some 0 }]
  links := Vector.replicate 2 none
  unused := {}
  embryo := {}
  sleeping := {}
  running := {}
  zombie := { head := some 1, tail := some 1, len := 1 }
  ready := #v[{ head := some 0, tail := some 0, len := 1 }]
  markers := Vector.replicate 1 none
  nextPid := 3
  sweepAt := 0
  root := some 0

theorem closed_twoSlots : twoSlots.Closed := by
  rintro (_ | _ | i) j hj
  · cases hj
  · cases hj
    decide
  · rw [record_of_le (Nat.le_add_left 2 i)] at hj
    cases hj

/-- The first character of the name has two bytes and room for one, so the listing ends before
it. -/
theorem prints_of_twoSlots : ∃ s sink, (twoSlots.printProcesses 0 false).Prints s ∧
    twoSlots.dump 0 false none = .ok { text := s, complete := true } ∧
    (twoSlots.printProcesses 0 false).on { room := some 62 } = .ok (.error .refused, sink) ∧
    sink.taken =
      "\nPID\tName         UID\tGID\tPPID\tPrio\tElapsed\tCPU\tState\tSize\n1\t".toList := by
  obtain ⟨hprocesses, -⟩ := prints_of_audit (t := twoSlots) (by decide) closed_twoSlots
  obtain ⟨s, hprints, hcuts⟩ := hprocesses 0 false
  obtain ⟨part, sink, hpart, hon, htaken, -⟩ := hprints.under 62
  obtain ⟨part', hpart', hdump⟩ := hcuts.under 62
  have hcut : twoSlots.dump 0 false (some 62) = .ok {
      text := "\nPID\tName         UID\tGID\tPPID\tPrio\tElapsed\tCPU\tState\tSize\n1\t"
      complete := false } := by decide
  obtain ⟨htext, hleft⟩ := Written.mk.inj (Except.ok.inj (hdump.symm.trans hcut))
  rw [if_neg (of_decide_eq_false hleft)] at hon
  exact ⟨s, sink, hprints, hcuts.whole, hon, htaken.trans (by rw [hpart.unique hpart', htext])⟩

end Table

end FeedbackQueue
