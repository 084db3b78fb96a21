import CronTimes.Proofs.Retries

namespace CronTimes

section Nearest

variable {s : Schedule} {d : Direction} {m : Minute} {inclusive : Bool} {r : Minute}

theorem Schedule.Allowed.nearest_eq_some_iff (allowed : s.Allowed) :
    s.nearest d m inclusive = .ok (some r) ↔
      ∃ a, d.start? m inclusive = some a ∧ ∃ n ≤ maxRetries, s.Finds d n a r := by
  obtain ⟨found, hn, hf⟩ := allowed.nearest_found d m inclusive
  rw [hn, Except.ok.injEq, hf r]

theorem Schedule.NearestEvent.silent {a t : Minute} (h : s.NearestEvent d a r)
    (allowed : s.Allowed) (hat : d.Reaches a t) (htr : d.Before t r) : s.firesAt t = .ok false := by
  apply allowed.firesAt_false
  intro fires
  exact htr.not_reaches (h.nearest t fires hat)

theorem Schedule.Allowed.nearest_sound (allowed : s.Allowed) (d : Direction) (m : Minute)
    (inclusive : Bool) :
    ∃ found, s.nearest d m inclusive = .ok found ∧ ∀ r, found = some r →
      ∃ a, d.start? m inclusive = some a ∧ d.Reaches a r ∧ s.firesAt r = .ok true ∧
        ∀ t, d.Reaches a t → d.Before t r → s.firesAt t = .ok false := by
  obtain ⟨found, hn, hf⟩ := allowed.nearest_found d m inclusive
  refine ⟨found, hn, ?_⟩
  intro r hr
  obtain ⟨a, ha, n, _, finds⟩ := (hf r).mp hr
  have h := finds.nearest allowed
  exact ⟨a, ha, h.reached, h.fires, fun t hat htr => h.silent allowed hat htr⟩

theorem Schedule.Allowed.nearest_closer (allowed : s.Allowed) {a : Minute} {q : Minute}
    (found : s.nearest d m inclusive = .ok (some r)) (ha : d.start? m inclusive = some a)
    (haq : d.Reaches a q) (hqr : d.Reaches q r) :
    s.nearest d q true = .ok (some r) ∧
      (d.Before q r → s.nearest d q false = .ok (some r)) := by
  obtain ⟨a', ha', n, hn, finds⟩ := allowed.nearest_eq_some_iff.mp found
  cases Option.some.inj (ha.symm.trans ha')
  have closer : ∀ b, d.Reaches a b → d.Reaches b r → ∃ k ≤ maxRetries, s.Finds d k b r := by
    intro b hab hbr
    obtain ⟨k, hk, finds'⟩ := finds.closer allowed hab hbr
    exact ⟨k, Nat.le_trans hk hn, finds'⟩
  constructor
  · exact allowed.nearest_eq_some_iff.mpr ⟨q, rfl, closer q haq hqr⟩
  · intro before
    obtain ⟨b, hb⟩ := Direction.step?_exists before
    have hab := haq.trans (Direction.step?_before hb).reaches
    have hbr := Direction.step?_reaches hb before
    exact allowed.nearest_eq_some_iff.mpr ⟨b, hb, closer b hab hbr⟩

end Nearest

/-- A lookup always answers. What it finds is an event at or past its start, and the schedule is
silent from the start up to there. -/
theorem Schedule.lookup_finds_nearest {text : String} {s : Schedule}
    (parsed : Schedule.parse text = .ok s) (i : Instant) (inclusive : Bool) :
    (∃ found, s.next i inclusive = .ok found ∧ ∀ r, found = some r →
      ∃ a, (if inclusive then some i.minute else i.minute.next?) = some a ∧ a ≤ r ∧
        s.firesAt r = .ok true ∧ ∀ t, a ≤ t → t < r → s.firesAt t = .ok false) ∧
    (∃ found, s.prev i inclusive = .ok found ∧ ∀ r, found = some r →
      ∃ a, (if inclusive then some i.minute else i.minute.prev?) = some a ∧ r ≤ a ∧
        s.firesAt r = .ok true ∧ ∀ t, r < t → t ≤ a → s.firesAt t = .ok false) := by
  have allowed := Schedule.parse_allowed parsed
  refine ⟨allowed.nearest_sound .forward i.minute inclusive, ?_⟩
  obtain ⟨found, hp, hf⟩ := allowed.nearest_sound .backward i.minute inclusive
  refine ⟨found, hp, ?_⟩
  intro r hr
  obtain ⟨a, ha, hra, fires, silent⟩ := hf r hr
  exact ⟨a, ha, hra, fires, fun t hrt hta => silent t hta hrt⟩

def Minute.midnight (year : Int) (month day : Nat)
    (h : (Minute.ofCivil? year month day 0 0).isSome) : Minute :=
  (Minute.ofCivil? year month day 0 0).get h

/-- Midnight on leap days, with a long stretch of selected years before the first one. -/
def leapDays : Schedule where
  expression := "0 0 29 2 ? 2001-2003,2005-2007,2009-2011,2013-2040"
  minute := FieldSet.ofList [0]
  hour := FieldSet.ofList [0]
  days := .daysOfMonth (FieldSet.ofList [29])
  month := FieldSet.ofList [2]
  year := FieldSet.ofList ([2001, 2002, 2003, 2005, 2006, 2007, 2009, 2010, 2011] ++
    List.range' 2013 28)

theorem parse_leapDays :
    Schedule.parse "0 0 29 2 ? 2001-2003,2005-2007,2009-2011,2013-2040" = .ok leapDays := by
  decide +kernel

def leapDay2016 : Minute := .midnight 2016 2 29 (by decide)

def leapDay2020 : Minute := .midnight 2020 2 29 (by decide)

/-- A leap second in the minute of an event. -/
def leapDay2016Late : Instant :=
  ⟨leapDay2016, 59, 1500000000, by decide, by decide, by decide⟩

theorem Schedule.lookup_finds_next_leap_day :
    Schedule.parse "0 0 29 2 ? 2001-2003,2005-2007,2009-2011,2013-2040" = .ok leapDays ∧
      leapDays.next leapDay2016Late false = .ok (some leapDay2020) ∧
      leapDays.firesAt leapDay2020 = .ok true ∧
      ∀ t, leapDay2016 < t → t < leapDay2020 → leapDays.firesAt t = .ok false := by
  have next : leapDays.next leapDay2016Late false = .ok (some leapDay2020) := by decide +kernel
  obtain ⟨found, hn, hf⟩ :=
    (Schedule.lookup_finds_nearest parse_leapDays leapDay2016Late false).1
  obtain ⟨a, ha, -, fires, silent⟩ := hf leapDay2020 (Except.ok.inj (hn.symm.trans next))
  have after : leapDay2016.next? = some a := ha
  refine ⟨parse_leapDays, next, fires, ?_⟩
  intro t ht
  exact silent t ((Minute.next?_nearest after).2 t ht)

/-- Starting closer never hurts, even where the bound on retries makes lookups from other starts
give up. -/
theorem Schedule.lookup_from_closer {text : String} {s : Schedule}
    (parsed : Schedule.parse text = .ok s) (p q : Instant) (inclusive : Bool) (a r : Minute) :
    (s.next p inclusive = .ok (some r) →
      (if inclusive then some p.minute else p.minute.next?) = some a →
      a ≤ q.minute → q.minute ≤ r →
        s.next q true = .ok (some r) ∧ (q.minute < r → s.next q false = .ok (some r))) ∧
    (s.prev p inclusive = .ok (some r) →
      (if inclusive then some p.minute else p.minute.prev?) = some a →
      r ≤ q.minute → q.minute ≤ a →
        s.prev q true = .ok (some r) ∧ (r < q.minute → s.prev q false = .ok (some r))) := by
  have allowed := Schedule.parse_allowed parsed
  constructor
  · intro found ha haq hqr
    exact allowed.nearest_closer (d := .forward) found ha haq hqr
  · intro found ha hrq hqa
    exact allowed.nearest_closer (d := .backward) found ha hqa hrq

def june2018 : Instant :=
  ⟨⟨⟨2018, 6, 15, by decide, by decide, by decide, by decide⟩, 15, 30, by decide, by decide⟩,
    12, 250000000, by decide, by decide, by decide⟩

/-- Lookups from both sides of a minute between two events find what lookups from these events
find. -/
theorem Schedule.lookup_from_between_leap_days :
    leapDays.next june2018 false = .ok (some leapDay2020) ∧
      leapDays.prev june2018 false = .ok (some leapDay2016) := by
  have next : leapDays.next leapDay2016.start false = .ok (some leapDay2020) := by decide +kernel
  have prev : leapDays.prev leapDay2020.start false = .ok (some leapDay2016) := by decide +kernel
  obtain ⟨a, ha⟩ := Minute.next?_exists (show leapDay2016 < leapDay2020 by decide)
  obtain ⟨b, hb⟩ := Minute.prev?_exists (show leapDay2016 < leapDay2020 by decide)
  constructor
  · exact ((Schedule.lookup_from_closer parse_leapDays leapDay2016.start june2018 false a
      leapDay2020).1 next ha ((Minute.next?_nearest ha).2 _ (by decide)) (by decide)).2 (by decide)
  · exact ((Schedule.lookup_from_closer parse_leapDays leapDay2020.start june2018 false b
      leapDay2016).2 prev hb (by decide) ((Minute.prev?_nearest hb).2 _ (by decide))).2 (by decide)

end CronTimes
