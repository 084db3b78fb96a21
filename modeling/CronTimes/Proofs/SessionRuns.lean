import CronTimes.Session
import CronTimes.Proofs.CheckedLookups

namespace CronTimes

theorem mapError_eq_ok {α ε ε' : Type} {f : ε → ε'} {x : Except ε α} {a : α}
    (h : x.mapError f = .ok a) : x = .ok a := by
  cases x with
  | error e => simp [Except.mapError] at h
  | ok b => exact congrArg Except.ok (Except.ok.inj h)

theorem mem_of_lookup {α : Type} {name : String} {value : α} {entries : List (String × α)}
    (h : entries.lookup name = some value) : (name, value) ∈ entries := by
  obtain ⟨before, behind, rfl, -⟩ := List.lookup_eq_some_iff.mp h
  simp

theorem forall_mem_putEntry {α : Type} (p : α → Prop) {name : String} {value : α}
    {entries : List (String × α)} (new : p value) (old : ∀ entry ∈ entries, p entry.2) :
    ∀ entry ∈ putEntry name value entries, p entry.2 := by
  intro entry he
  rcases List.mem_cons.mp he with rfl | kept
  · exact new
  · exact old entry (List.mem_filter.mp kept).1

/-- A schedule that some text was read as. -/
def Schedule.IsRead (s : Schedule) : Prop :=
  ∃ text, parse text = .ok s

/-- A run of events of such a schedule. -/
def EventRun.IsRead (run : EventRun) : Prop :=
  run.schedule.IsRead

/-- What is asked of a session is not refused for a fault of the calendar. -/
def Answerable {α : Type} (result : Except SessionError α) : Prop :=
  ∀ fault, result ≠ .error (.calendar fault)

namespace Answerable

variable {α β : Type} {result : Except SessionError α}

theorem ok (value : α) : Answerable (.ok value) := by
  intro fault
  simp

theorem bind {next : α → Except SessionError β} (h : Answerable result)
    (rest : ∀ value, result = .ok value → Answerable (next value)) :
    Answerable (result >>= next) := by
  cases result with
  | error cause =>
    intro fault same
    exact h fault (congrArg Except.error (Except.error.inj same))
  | ok value => exact rest value rfl

theorem map (f : α → β) (h : Answerable result) : Answerable (result.map f) := by
  cases result with
  | error cause =>
    intro fault same
    exact h fault (congrArg Except.error (Except.error.inj same))
  | ok value => exact ok (f value)

theorem cron (read : Except CronError α) : Answerable (read.mapError .cron) := by
  intro fault
  cases read <;> simp [Except.mapError]

end Answerable

theorem Agrees.answerable {α : Type} {checked : Except Halt α} {plain : Except CalendarFault α}
    (h : Agrees checked plain) : Answerable (plain.mapError .calendar) := by
  obtain ⟨result, -, rfl⟩ := h
  exact Answerable.ok result

namespace Session

/-- The session that a step leaves behind: a refused step leaves the one it found. -/
def afterStep (session : Session) (step : SessionStep) : Session :=
  match session.step step with
  | .ok (_, next) => next
  | .error _ => session

def after (session : Session) (steps : List SessionStep) : Session :=
  steps.foldl afterStep session

/-- The steps of a run that are not refused. -/
def taken (session : Session) : List SessionStep → List SessionStep
  | [] => []
  | step :: steps =>
    match session.step step with
    | .ok (_, next) => step :: next.taken steps
    | .error _ => session.taken steps

/-- What a session keeps comes from texts: its schedules were read from them, and its runs are runs
of such schedules. -/
structure Sound (session : Session) : Prop where
  schedules : ∀ entry ∈ session.schedules, entry.2.IsRead
  runs : ∀ entry ∈ session.runs, entry.2.IsRead

theorem sound_empty : empty.Sound :=
  ⟨by simp [empty], by simp [empty]⟩

section Step

variable {session next : Session} {step : SessionStep} {answer : SessionAnswer}
  {error : SessionError} {name : String}

theorem afterStep_of_ok (h : session.step step = .ok (answer, next)) :
    session.afterStep step = next := by
  rw [afterStep, h]

theorem afterStep_of_refused (h : session.step step = .error error) :
    session.afterStep step = session := by
  rw [afterStep, h]

theorem taken_cons_of_ok (steps : List SessionStep) (h : session.step step = .ok (answer, next)) :
    session.taken (step :: steps) = step :: next.taken steps := by
  rw [taken, h]

theorem taken_cons_of_refused (steps : List SessionStep) (h : session.step step = .error error) :
    session.taken (step :: steps) = session.taken steps := by
  rw [taken, h]

theorem answerable_schedule (session : Session) (name : String) :
    Answerable (session.schedule name) := by
  intro fault
  unfold schedule
  split <;> simp

theorem answerable_openedRun (session : Session) (name : String) :
    Answerable (session.openedRun name) := by
  intro fault
  unfold openedRun
  split <;> simp

theorem answerable_position (session : Session) : Answerable session.position := by
  intro fault
  unfold position
  split <;> simp

theorem Sound.schedule_isRead (sound : session.Sound) {s : Schedule}
    (h : session.schedule name = .ok s) : s.IsRead := by
  unfold schedule at h
  split at h
  next found =>
    cases Except.ok.inj h
    exact sound.schedules _ (mem_of_lookup found)
  next => simp at h

theorem Sound.run_isRead (sound : session.Sound) {run : EventRun}
    (h : session.openedRun name = .ok run) : run.IsRead := by
  unfold openedRun at h
  split at h
  next found =>
    cases Except.ok.inj h
    exact sound.runs _ (mem_of_lookup found)
  next => simp at h

theorem Sound.schedule_allowed (sound : session.Sound) {s : Schedule}
    (h : session.schedule name = .ok s) : s.Allowed := by
  obtain ⟨text, parsed⟩ := sound.schedule_isRead h
  exact Schedule.parse_allowed parsed

theorem Sound.moveTo (sound : session.Sound) (event : Option Minute) :
    (session.moveTo event).Sound := by
  cases event with
  | none => exact sound
  | some event => exact ⟨sound.schedules, sound.runs⟩

/-- Only `define` changes the schedules, and only `openRun` and `pull` change the runs. -/
theorem Sound.of_step (sound : session.Sound) (h : session.step step = .ok (answer, next)) :
    next.Sound := by
  cases step with
  | define name expression =>
    obtain ⟨s, parsed, h⟩ := bind_eq_ok h
    cases Except.ok.inj h
    have new : s.IsRead := ⟨expression, mapError_eq_ok parsed⟩
    exact ⟨forall_mem_putEntry Schedule.IsRead new sound.schedules, sound.runs⟩
  | seek goal =>
    obtain ⟨instant, -, h⟩ := bind_eq_ok h
    cases Except.ok.inj h
    exact ⟨sound.schedules, sound.runs⟩
  | move direction name inclusive =>
    obtain ⟨s, -, h⟩ := bind_eq_ok h
    obtain ⟨cursor, -, h⟩ := bind_eq_ok h
    obtain ⟨event, -, h⟩ := bind_eq_ok h
    cases Except.ok.inj h
    exact sound.moveTo event
  | fires name =>
    obtain ⟨s, -, h⟩ := bind_eq_ok h
    obtain ⟨cursor, -, h⟩ := bind_eq_ok h
    obtain ⟨value, -, h⟩ := bind_eq_ok h
    cases Except.ok.inj h
    exact sound
  | between name last excludeEnds =>
    obtain ⟨s, -, h⟩ := bind_eq_ok h
    obtain ⟨cursor, -, h⟩ := bind_eq_ok h
    obtain ⟨last, -, h⟩ := bind_eq_ok h
    obtain ⟨events, -, h⟩ := bind_eq_ok h
    cases Except.ok.inj h
    exact sound
  | finalBefore name earliest =>
    obtain ⟨s, -, h⟩ := bind_eq_ok h
    obtain ⟨cursor, -, h⟩ := bind_eq_ok h
    obtain ⟨earliest, -, h⟩ := bind_eq_ok h
    obtain ⟨event, -, h⟩ := bind_eq_ok h
    cases Except.ok.inj h
    exact sound
  | openRun direction name run =>
    obtain ⟨s, hs, h⟩ := bind_eq_ok h
    obtain ⟨cursor, -, h⟩ := bind_eq_ok h
    obtain ⟨opened, ho, h⟩ := bind_eq_ok h
    cases Except.ok.inj h
    have same := (sound.schedule_allowed hs).run_schedule (mapError_eq_ok ho)
    have new : opened.IsRead := by
      rw [EventRun.IsRead, same]
      exact sound.schedule_isRead hs
    exact ⟨sound.schedules, forall_mem_putEntry EventRun.IsRead new sound.runs⟩
  | pull name count follow =>
    obtain ⟨run, hr, h⟩ := bind_eq_ok h
    obtain ⟨⟨events, rest⟩, hp, h⟩ := bind_eq_ok h
    cases Except.ok.inj h
    have same := EventRun.pullN_schedule (mapError_eq_ok hp)
    have new : rest.IsRead := by
      rw [EventRun.IsRead, same]
      exact sound.run_isRead hr
    have kept : Sound { session with runs := putEntry name rest session.runs } :=
      ⟨sound.schedules, forall_mem_putEntry EventRun.IsRead new sound.runs⟩
    split
    next => exact kept.moveTo _
    next => exact kept
  | compare name other =>
    obtain ⟨first, -, h⟩ := bind_eq_ok h
    obtain ⟨second, -, h⟩ := bind_eq_ok h
    cases Except.ok.inj h
    exact sound

theorem Sound.afterStep (sound : session.Sound) (step : SessionStep) :
    (session.afterStep step).Sound := by
  cases h : session.step step with
  | error error => exact (afterStep_of_refused h).symm ▸ sound
  | ok pair =>
    obtain ⟨answer, next⟩ := pair
    exact (afterStep_of_ok h).symm ▸ sound.of_step h

/-- What is asked of a schedule at the cursor is answered if the schedule answers it. -/
theorem Sound.answerable_at_cursor {α : Type} (sound : session.Sound) (name : String)
    {ask : Schedule → Instant → Except SessionError α}
    (h : ∀ s cursor, s.Allowed → Answerable (ask s cursor)) :
    Answerable (session.schedule name >>= fun s => session.position >>= ask s) := by
  refine (answerable_schedule session name).bind fun s hs => ?_
  exact (answerable_position session).bind fun cursor _ => h s cursor (sound.schedule_allowed hs)

/-- Steps are refused for a text that cannot be read, for an unknown name or for lack of a cursor,
and for nothing else. -/
theorem Sound.answerable (sound : session.Sound) (step : SessionStep) :
    Answerable (session.step step) := by
  cases step with
  | define name expression => exact (Answerable.cron _).bind fun _ _ => .ok _
  | seek goal => exact (Answerable.cron _).bind fun _ _ => .ok _
  | move direction name inclusive =>
    refine sound.answerable_at_cursor name fun s cursor allowed => ?_
    have agrees := Checked.nearest_agrees allowed direction cursor.minute inclusive
    exact agrees.answerable.bind fun _ _ => .ok _
  | fires name =>
    refine sound.answerable_at_cursor name fun s cursor allowed => ?_
    have agrees := Checked.firesAt_agrees allowed cursor.minute
    exact agrees.answerable.bind fun _ _ => .ok _
  | between name last excludeEnds =>
    refine sound.answerable_at_cursor name fun s cursor allowed => ?_
    refine (Answerable.cron _).bind fun last _ => ?_
    have agrees := Checked.between_agrees allowed cursor last excludeEnds
    exact agrees.answerable.bind fun _ _ => .ok _
  | finalBefore name earliest =>
    refine sound.answerable_at_cursor name fun s cursor allowed => ?_
    refine (Answerable.cron _).bind fun earliest _ => ?_
    have agrees := Checked.finalBefore_agrees allowed earliest cursor
    exact agrees.answerable.bind fun _ _ => .ok _
  | openRun direction name run =>
    refine sound.answerable_at_cursor name fun s cursor allowed => ?_
    have agrees := Checked.run_agrees allowed direction cursor.minute false
    exact agrees.answerable.bind fun _ _ => .ok _
  | pull name count follow =>
    refine (answerable_openedRun session name).bind fun run hr => ?_
    obtain ⟨text, parsed⟩ := sound.run_isRead hr
    have agrees := Checked.pullN_agrees count run (Schedule.parse_allowed parsed)
    exact agrees.answerable.bind fun _ _ => .ok _
  | compare name other =>
    refine (answerable_schedule session name).bind fun _ _ => ?_
    exact (answerable_schedule session other).bind fun _ _ => .ok _

end Step

section Run

theorem answers_cons (session : Session) (step : SessionStep) (steps : List SessionStep) :
    session.answers (step :: steps) =
      ((session.step step).map Prod.fst, (session.afterStep step).cursor) ::
        (session.afterStep step).answers steps := by
  rw [answers, afterStep]
  cases session.step step <;> rfl

theorem after_cons (session : Session) (step : SessionStep) (steps : List SessionStep) :
    session.after (step :: steps) = (session.afterStep step).after steps := rfl

theorem after_append (session : Session) (steps more : List SessionStep) :
    session.after (steps ++ more) = (session.after steps).after more :=
  List.foldl_append

theorem answers_append (session : Session) (steps more : List SessionStep) :
    session.answers (steps ++ more) =
      session.answers steps ++ (session.after steps).answers more := by
  induction steps generalizing session with
  | nil => rfl
  | cons step steps ih =>
    rw [List.cons_append, answers_cons, answers_cons, ih, List.cons_append, after_cons]

/-- Each step is answered from the session that the steps before it leave behind, and its answer
comes with the cursor of the session that it leaves behind itself. -/
theorem getElem?_answers (session : Session) (steps : List SessionStep) (index : Nat) :
    (session.answers steps)[index]? = steps[index]?.map fun step =>
      (((session.after (steps.take index)).step step).map Prod.fst,
        (session.after (steps.take (index + 1))).cursor) := by
  induction steps generalizing session index with
  | nil => rfl
  | cons step steps ih =>
    rw [answers_cons]
    cases index with
    | zero => rfl
    | succ index => exact ih (session.afterStep step) index

theorem length_answers (session : Session) (steps : List SessionStep) :
    (session.answers steps).length = steps.length := by
  induction steps generalizing session with
  | nil => rfl
  | cons step steps ih => rw [answers_cons, List.length_cons, List.length_cons, ih]

/-- The steps that are not refused are answered as if no other step had been asked for. -/
theorem answers_taken (session : Session) (steps : List SessionStep) :
    session.answers (session.taken steps) =
      (session.answers steps).filter fun answer => answer.1.isOk := by
  induction steps generalizing session with
  | nil => rfl
  | cons step steps ih =>
    cases h : session.step step with
    | error error =>
      rw [taken_cons_of_refused steps h, answers_cons, h, afterStep_of_refused h, ih session]
      rfl
    | ok pair =>
      obtain ⟨answer, next⟩ := pair
      rw [taken_cons_of_ok steps h, answers_cons, answers_cons, h, afterStep_of_ok h, ih next]
      rfl

theorem after_taken (session : Session) (steps : List SessionStep) :
    session.after (session.taken steps) = session.after steps := by
  induction steps generalizing session with
  | nil => rfl
  | cons step steps ih =>
    cases h : session.step step with
    | error error =>
      rw [taken_cons_of_refused steps h, after_cons, afterStep_of_refused h, ih session]
    | ok pair =>
      obtain ⟨answer, next⟩ := pair
      rw [taken_cons_of_ok steps h, after_cons, after_cons, afterStep_of_ok h, ih next]

variable {session : Session}

theorem Sound.after (sound : session.Sound) (steps : List SessionStep) :
    (session.after steps).Sound := by
  induction steps generalizing session with
  | nil => exact sound
  | cons step steps ih => exact ih (sound.afterStep step)

theorem Sound.answers (sound : session.Sound) (steps : List SessionStep) :
    ∀ answer ∈ session.answers steps, Answerable answer.1 := by
  induction steps generalizing session with
  | nil => simp [Session.answers]
  | cons step steps ih =>
    rw [answers_cons, List.forall_mem_cons]
    exact ⟨(sound.answerable step).map Prod.fst, ih (sound.afterStep step)⟩

/-- A run of steps from an empty session never meets a fault of the calendar, whatever it asks for. -/
theorem answerable_from_empty (steps : List SessionStep) :
    ∀ answer ∈ empty.answers steps, Answerable answer.1 :=
  sound_empty.answers steps

end Run

end Session

end CronTimes
