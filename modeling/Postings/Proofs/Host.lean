/-
Files on a desk.

Where a path leads to a file, it does so whatever the files are, so a file can be written
twice; the second time is the one that counts.

* `Desk.locate_eq_file` — where a path leads;
* `Desk.put_put` — a file that is written twice;
* `Desk.bind_of_ok`, `Desk.bind_of_error`, `Desk.lift_bind` — steps one after the other;
* `Desk.readText_eq`, `Desk.readRegion_eq`, `Desk.write_eq` — one file is read and written.
-/
import Postings.Host

namespace Postings.Desk

variable {desk other : Desk} {path name : String} {bytes : ByteArray}

/-- A step is too long or not, whatever the files are. -/
theorem refusal_eq_nameTooLong {base step : String} :
    desk.refusal base step = .nameTooLong ↔ stepLimit < step.utf8ByteSize := by
  rw [refusal]
  split
  next hlong => exact iff_of_true rfl hlong
  next hshort =>
    split
    · exact iff_of_false (by simp) hshort
    · exact iff_of_false (by simp) hshort

theorem follow_eq_file {base : String} {steps : List String}
    (h : desk.follow base steps = .file name) : other.follow base steps = .file name := by
  induction steps generalizing base with
  | nil => exact absurd h (by simp [follow])
  | cons step rest ih =>
    rw [follow] at h ⊢
    split at h
    next hhere => rw [if_pos hhere, ih h]
    next hhere =>
      rw [if_neg hhere]
      split at h
      next habove => rw [if_pos habove, ih h]
      next habove =>
        rw [if_neg habove]
        split at h
        next hroot => rw [if_pos hroot, ih h]
        next hroot =>
          rw [if_neg hroot]
          simp only [refusal_eq_nameTooLong] at h ⊢
          -- Only the last step can be that of a file.
          split at h
          next hlast =>
            rw [if_pos hlast]
            split at h
            · exact absurd h (by simp)
            next hshort => rwa [if_neg hshort]
          next =>
            split at h
            · exact absurd h (by simp)
            · exact absurd h (by simp)

/-- Where a path leads to a file, it does so whatever the files are. -/
theorem locate_eq_file (h : desk.locate path = .file name) : other.locate path = .file name := by
  rw [locate] at h ⊢
  split at h
  · exact absurd h (by simp)
  next hsome =>
    rw [if_neg hsome]
    split at h
    · exact absurd h (by simp)
    next hshort =>
      rw [if_neg hshort]
      exact follow_eq_file h

theorem put_put (desk : Desk) (name : String) (first second : ByteArray) :
    (desk.put name first).put name second = desk.put name second := by
  have hfilter : ((name, first) :: desk.files.filter (·.1 != name)).filter (·.1 != name)
      = desk.files.filter (·.1 != name) := by
    rw [List.filter_cons_of_neg (by simp), List.filter_filter]
    simp
  simp only [put, hfilter]

/-! ### Steps -/

section Steps

variable {ε ε' α β : Type} {middle : Desk} {value : α}

theorem bind_of_ok {step : ExceptT ε (StateM Desk) α} {next : α → ExceptT ε (StateM Desk) β}
    (h : step desk = (.ok value, middle)) : (step >>= next) desk = next value middle := by
  simp only [bind, ExceptT.bind, ExceptT.mk, StateT.bind, h, ExceptT.bindCont]

theorem bind_of_error {step : ExceptT ε (StateM Desk) α} {next : α → ExceptT ε (StateM Desk) β}
    {error : ε} (h : step desk = (.error error, middle)) :
    (step >>= next) desk = (.error error, middle) := by
  simp only [bind, ExceptT.bind, ExceptT.mk, StateT.bind, h, ExceptT.bindCont]
  rfl

/-- An answer that is there leaves the desk alone. -/
theorem answer_bind (value : α) (next : α → ExceptT ε (StateM Desk) β) :
    (ExceptT.mk (pure (.ok value)) >>= next) desk = next value desk :=
  bind_of_ok rfl

/-- A step that cannot fail does the same among steps that may. -/
theorem lift_eq {step : StateM Desk α} (h : step desk = (value, middle)) :
    (ExceptT.lift step : ExceptT ε (StateM Desk) α) desk = (.ok value, middle) := by
  simp only [ExceptT.lift, ExceptT.mk, Functor.map, StateT.map, h]
  rfl

/-- The same among steps that may fail in two ways. -/
theorem lift_bind {step : ExceptT ε (StateM Desk) α}
    {next : α → ExceptT ε' (ExceptT ε (StateM Desk)) β} (h : step desk = (.ok value, middle)) :
    (ExceptT.lift step >>= next) desk = next value middle := by
  simp only [ExceptT.lift, bind, Functor.map, ExceptT.map, ExceptT.bind, ExceptT.mk, StateT.bind,
    h, ExceptT.bindCont]
  rfl

end Steps

/-! ### One file -/

theorem read_eq (h : desk.locate path = .file name) (hfile : desk.find? name = some bytes) :
    (Host.read path : StateM Desk (Except DiskFault ByteArray)) desk = (.ok bytes, desk) := by
  have hget : (get : StateM Desk Desk) desk = (desk, desk) := rfl
  simp only [Host.read, bind, StateT.bind, hget, h, hfile]
  rfl

theorem write_eq (h : desk.locate path = .file name) (bytes : ByteArray) :
    (Host.write path bytes : StateM Desk (Except DiskFault Unit)) desk
      = (.ok (), desk.put name bytes) := by
  have hget : (get : StateM Desk Desk) desk = (desk, desk) := rfl
  simp only [Host.write, bind, StateT.bind, hget, h]
  rfl

theorem fromUTF8?_toUTF8 (text : String) : String.fromUTF8? text.toUTF8 = some text := by
  show (if h : text.toByteArray.IsValidUTF8 then some (String.fromUTF8 text.toByteArray h)
    else none) = some text
  rw [dif_pos text.isValidUTF8]
  rfl

/-- The text of a file is what its bytes encode. -/
theorem readText_eq {ε : Type} {text : String} (h : desk.locate path = .file name)
    (hfile : desk.find? name = some text.toUTF8) :
    (Host.readText path : ExceptT ε (StateM Desk) (Except DiskFault String)) desk
      = (.ok (.ok text), desk) := by
  have hread : (Host.read path : ExceptT ε (StateM Desk) (Except DiskFault ByteArray)) desk
      = (.ok (.ok text.toUTF8), desk) := lift_eq (read_eq h hfile)
  rw [Host.readText, bind_of_ok hread]
  simp only [fromUTF8?_toUTF8]
  rfl

/-- A file that is there can be mapped. -/
theorem readRegion_eq {ε : Type} (h : desk.locate path = .file name)
    (hfile : desk.find? name = some bytes) :
    (Host.readRegion path : ExceptT ε (StateM Desk) (Except DiskFault ByteArray)) desk
      = (.ok (.ok bytes), desk) := by
  have hread : (Host.read path : ExceptT ε (StateM Desk) (Except DiskFault ByteArray)) desk
      = (.ok (.ok bytes), desk) := lift_eq (read_eq h hfile)
  rw [Host.readRegion, bind_of_ok hread]
  rfl

theorem present_eq {ε : Type} (h : desk.locate path = .file name)
    (hfile : desk.find? name = some bytes) :
    (Host.present path : ExceptT ε (StateM Desk) Bool) desk = (.ok true, desk) := by
  have hget : (get : StateM Desk Desk) desk = (desk, desk) := rfl
  refine lift_eq ?_
  simp only [Host.present, bind, StateT.bind, hget, h, hfile]
  rfl

theorem print_eq {ε : Type} (text : String) :
    (Host.print text : ExceptT ε (StateM Desk) Unit) desk
      = (.ok (), { desk with printed := desk.printed ++ text }) :=
  lift_eq rfl

end Postings.Desk
