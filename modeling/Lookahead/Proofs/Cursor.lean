import Lookahead.Proofs.Speculation

/-!
# A cursor over data at hand

What a client of a buffer could do without one: the whole data is at hand, and all there is to keep
is a place in it, the places saved by name, and those to which open frames go back. No bound and no
source come into it. Compaction does nothing here, and a frame that is closed without a commit
leaves nothing behind but the places saved in it.
-/

namespace Lookahead

open Session (Close Framing WellNested)

inductive Command where
  /-- Look at the next `amount` bytes and consume as many of them as `count` says, all of them at
  most. -/
  | take (amount : Nat) (count : List UInt8 → Nat)
  | discard
  | save (slot : String)
  | restore (slot : String)
  | openGuard (mode : Guard.Mode)
  | openAttempt
  | close (how : Close)

namespace Command

def isDiscard : Command → Bool
  | .discard => true
  | _ => false

/-- The name that a command saves the place under. -/
def saves : Command → Option String
  | .save slot => some slot
  | _ => none

instance : Framing Command where
  opens
    | .openGuard mode => some mode
    | .openAttempt => some .active
    | _ => none
  closes
    | .close how => some how
    | _ => none

/-- No place that is saved under one of the names beforehand is gone back to. -/
def Avoids (names : List String) : List Command → Prop
  | [] => True
  | .save slot :: commands => Avoids (names.filter (fun name => name != slot)) commands
  | .restore slot :: commands => slot ∉ names ∧ Avoids names commands
  | _ :: commands => Avoids names commands

end Command

/-- What a client sees of a command: how many bytes there were, the bytes, and where the cursor then
stands. -/
structure Seen where
  count : Nat := 0
  bytes : List UInt8 := []
  place : Place
deriving DecidableEq, Repr

/-- Of what some commands showed, what those other than for compaction did. -/
def Command.besidesDiscards (commands : List Command) (seen : List Seen) : List Seen :=
  ((commands.zip seen).filter (fun shown => !shown.1.isDiscard)).map Prod.snd

/-- A place in the data, the places that the open frames go back to, innermost first, and the places
saved by name. An inactive frame goes nowhere; a name that was never saved under means the start. -/
structure Cursor where
  place : Place := {}
  frames : List (Option Place) := []
  saved : String → Place := fun _ => {}

namespace Cursor

def enter (c : Cursor) : Guard.Mode → Cursor
  | .active => { c with frames := some c.place :: c.frames }
  | .inactive => { c with frames := none :: c.frames }

/-- The cursor with its innermost frame closed, if there is one. -/
def leave (c : Cursor) (how : Close) : Cursor :=
  match c.frames with
  | [] => c
  | back :: frames => { c with frames, place := if how.keeps then c.place else back.getD c.place }

section

variable (data : List UInt8) (lineByte : UInt8)

def look (c : Cursor) : Command → List UInt8
  | .take amount _ => (data.drop c.place.byte).take amount
  | _ => []

def next (c : Cursor) : Command → Cursor
  | .take amount count =>
      let bytes := c.look data (.take amount count)
      { c with place := c.place.advance lineByte (bytes.take (count bytes)) }
  | .discard => c
  | .save slot => { c with saved := fun name => if name = slot then c.place else c.saved name }
  | .restore slot => { c with place := c.saved slot }
  | .openGuard mode => c.enter mode
  | .openAttempt => c.enter .active
  | .close how => c.leave how

def see (c : Cursor) (command : Command) : Seen :=
  ⟨(c.look data command).length, c.look data command, (c.next data lineByte command).place⟩

def run (c : Cursor) (commands : List Command) : Cursor :=
  commands.foldl (fun c command => c.next data lineByte command) c

/-- What some commands show, one after the other. -/
def watch (c : Cursor) : List Command → List Seen
  | [] => []
  | command :: commands =>
      c.see data lineByte command :: watch (c.next data lineByte command) commands

end

variable {data : List UInt8} {lineByte : UInt8}

theorem watch_append (c : Cursor) (first second : List Command) :
    c.watch data lineByte (first ++ second)
      = c.watch data lineByte first ++ (c.run data lineByte first).watch data lineByte second := by
  induction first generalizing c with
  | nil => rfl
  | cons command first ih =>
      rw [List.cons_append, watch, watch, ih, List.cons_append]
      rfl

@[simp] theorem length_watch (c : Cursor) (commands : List Command) :
    (c.watch data lineByte commands).length = commands.length := by
  induction commands generalizing c with
  | nil => rfl
  | cons command commands ih => rw [watch, List.length_cons, List.length_cons, ih]

theorem run_append (c : Cursor) (first second : List Command) :
    c.run data lineByte (first ++ second) = (c.run data lineByte first).run data lineByte second :=
  List.foldl_append

/-! ## Compaction -/

/-- Compaction does not change what the other commands show. -/
theorem watch_besidesDiscards (c : Cursor) (commands : List Command) :
    c.watch data lineByte (commands.filter (fun command => !command.isDiscard))
      = Command.besidesDiscards commands (c.watch data lineByte commands) := by
  induction commands generalizing c with
  | nil => rfl
  | cons command commands ih =>
      cases command with
      | discard => exact ih c
      | _ => exact congrArg (List.cons _) (ih _)

/-! ## Speculation -/

/-- The frames that a cursor is in, whatever a well-nested run does, are the same after it. -/
theorem frames_run {commands : List Command} (h : WellNested commands) (c : Cursor) :
    (c.run data lineByte commands).frames = c.frames := by
  induction h generalizing c with
  | nil => rfl
  | @within command commands hopens hcloses _ ih =>
      have hnext : (c.next data lineByte command).frames = c.frames := by
        cases command with
        | openGuard mode => cases hopens
        | openAttempt => cases hopens
        | close how => cases hcloses
        | _ => rfl
      exact (ih _).trans hnext
  | @frame opening closing mode how body commands hopens _ hcloses _ ihbody ihrest =>
      obtain ⟨back, hopened⟩ :
          ∃ back, (c.next data lineByte opening).frames = back :: c.frames := by
        cases opening with
        | openGuard mode => cases mode <;> exact ⟨_, rfl⟩
        | openAttempt => exact ⟨_, rfl⟩
        | _ => cases hopens
      have hbody := (ihbody (c.next data lineByte opening)).trans hopened
      have hclosed : ∀ last : Cursor, last.frames = back :: c.frames →
          (last.next data lineByte closing).frames = c.frames := by
        intro last hlast
        cases closing with
        | close how =>
            show (last.leave how).frames = c.frames
            unfold leave
            rw [hlast]
        | _ => cases hcloses
      have hrun : c.run data lineByte (opening :: (body ++ closing :: commands))
          = (((c.next data lineByte opening).run data lineByte body).next data lineByte
              closing).run data lineByte commands :=
        run_append _ body (closing :: commands)
      rw [hrun, ihrest, hclosed _ hbody]

/-- Whether two cursors differ in nothing but what is saved under some names. -/
structure AgreesBut (names : List String) (c d : Cursor) : Prop where
  place_eq : c.place = d.place
  frames_eq : c.frames = d.frames
  saved_eq : ∀ name, name ∉ names → c.saved name = d.saved name

/-- A run leaves what is saved under other names than those it saves under. -/
theorem saved_run {name : String} {commands : List Command} (c : Cursor)
    (hname : name ∉ commands.filterMap Command.saves) :
    (c.run data lineByte commands).saved name = c.saved name := by
  induction commands generalizing c with
  | nil => rfl
  | cons command commands ih =>
      have hrest : name ∉ commands.filterMap Command.saves := by
        intro hmem
        apply hname
        rw [List.filterMap_cons]
        split
        · exact hmem
        · exact List.mem_cons_of_mem _ hmem
      have hnext : (c.next data lineByte command).saved name = c.saved name := by
        cases command with
        | save slot =>
            have hne : name ≠ slot := by
              rintro rfl
              exact hname List.mem_cons_self
            exact if_neg hne
        | openGuard mode => cases mode <;> rfl
        | close how =>
            show (c.leave how).saved name = c.saved name
            unfold leave
            split <;> rfl
        | _ => rfl
      exact (ih (c.next data lineByte command) hrest).trans hnext

/-- A frame that is closed without a commit leaves nothing but what was saved in it. -/
theorem agreesBut_speculation (c : Cursor) {opening closing : Command} {body : List Command}
    {how : Close} (hopens : Framing.opens opening = some .active) (hnested : WellNested body)
    (hcloses : Framing.closes closing = some how) (hkeeps : how.keeps = false) :
    AgreesBut (body.filterMap Command.saves)
      (c.run data lineByte (opening :: (body ++ [closing]))) c := by
  have hopened : c.next data lineByte opening = c.enter .active := by
    cases opening with
    | openGuard mode =>
        cases hopens
        rfl
    | openAttempt => rfl
    | _ => cases hopens
  have hclosed : ∀ last : Cursor, last.next data lineByte closing = last.leave how := by
    intro last
    cases closing with
    | close how =>
        cases hcloses
        rfl
    | _ => cases hcloses
  have hrun : c.run data lineByte (opening :: (body ++ [closing]))
      = ((c.enter .active).run data lineByte body).leave how := by
    rw [← hclosed, ← hopened]
    exact run_append _ body [closing]
  have hframes : ((c.enter .active).run data lineByte body).frames = some c.place :: c.frames :=
    frames_run hnested _
  rw [hrun]
  unfold leave
  rw [hframes]
  refine ⟨?_, rfl, fun name hname => ?_⟩
  · rw [hkeeps]
    rfl
  · exact saved_run (c.enter .active) hname

namespace AgreesBut

variable {names : List String} {c d : Cursor}

theorem enter (h : AgreesBut names c d) (mode : Guard.Mode) :
    AgreesBut names (c.enter mode) (d.enter mode) := by
  obtain ⟨hplace, hframes, hsaved⟩ := h
  cases mode with
  | active =>
      refine ⟨hplace, ?_, hsaved⟩
      show some c.place :: c.frames = some d.place :: d.frames
      rw [hplace, hframes]
  | inactive =>
      refine ⟨hplace, ?_, hsaved⟩
      show none :: c.frames = none :: d.frames
      rw [hframes]

theorem leave (h : AgreesBut names c d) (how : Close) :
    AgreesBut names (c.leave how) (d.leave how) := by
  obtain ⟨hplace, hframes, hsaved⟩ := h
  unfold Cursor.leave
  rw [hframes]
  cases d.frames with
  | nil => exact ⟨hplace, hframes, hsaved⟩
  | cons back frames => exact ⟨by simp only [hplace], rfl, hsaved⟩

theorem save (h : AgreesBut names c d) (slot : String) :
    AgreesBut (names.filter (fun name => name != slot)) (c.next data lineByte (.save slot))
      (d.next data lineByte (.save slot)) := by
  refine ⟨h.place_eq, h.frames_eq, fun name hname => ?_⟩
  show (if name = slot then c.place else c.saved name)
    = if name = slot then d.place else d.saved name
  by_cases hslot : name = slot
  · rw [if_pos hslot, if_pos hslot, h.place_eq]
  · rw [if_neg hslot, if_neg hslot]
    refine h.saved_eq name fun hmem => hname ?_
    exact List.mem_filter.mpr ⟨hmem, bne_iff_ne.mpr hslot⟩

theorem look_eq (h : AgreesBut names c d) (command : Command) :
    c.look data command = d.look data command := by
  cases command with
  | take amount count =>
      show (data.drop c.place.byte).take amount = (data.drop d.place.byte).take amount
      rw [h.place_eq]
  | _ => rfl

theorem next (h : AgreesBut names c d) {command : Command} {commands : List Command}
    (havoids : Command.Avoids names (command :: commands)) :
    ∃ others, AgreesBut others (c.next data lineByte command) (d.next data lineByte command) ∧
      Command.Avoids others commands := by
  cases command with
  | take amount count =>
      refine ⟨names, ⟨?_, h.frames_eq, h.saved_eq⟩, havoids⟩
      show c.place.advance lineByte _ = d.place.advance lineByte _
      rw [h.look_eq, h.place_eq]
  | discard => exact ⟨names, h, havoids⟩
  | save slot => exact ⟨_, h.save slot, havoids⟩
  | restore slot =>
      obtain ⟨hslot, hrest⟩ := havoids
      exact ⟨names, ⟨h.saved_eq slot hslot, h.frames_eq, h.saved_eq⟩, hrest⟩
  | openGuard mode => exact ⟨names, h.enter mode, havoids⟩
  | openAttempt => exact ⟨names, h.enter .active, havoids⟩
  | close how => exact ⟨names, h.leave how, havoids⟩

end AgreesBut

/-- Saved places that are not gone back to do not show. -/
theorem watch_congr {names : List String} {commands : List Command} {c d : Cursor}
    (h : AgreesBut names c d) (havoids : Command.Avoids names commands) :
    c.watch data lineByte commands = d.watch data lineByte commands := by
  induction commands generalizing names c d with
  | nil => rfl
  | cons command commands ih =>
      obtain ⟨others, hnext, hrest⟩ := h.next havoids
      rw [watch, watch, ih hnext hrest, see, see, h.look_eq, hnext.place_eq]

end Cursor

end Lookahead
