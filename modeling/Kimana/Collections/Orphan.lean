import Kimana.Collections.Opening
import Kimana.ReadCommitted.Point

/-!
# Receives that no request records

Money paid into a receive is matched to the request that records it.  A receive is opened before the
request is stored, so a failure between the two leaves one that nobody records and nobody closes.

* `points_createCollection` : a call closes or records the receive it has opened, unless it fails in
  between.
* `noOrphan_of_reach` : **no orphans**, in every run in which no call fails there.
-/

namespace Kimana.Opening

open ReadCommitted Util Collections

/-! ### Closing a receive -/

/-- A receive was cancelled, or a request records it. -/
def Settled (d : Desk) (receive : String) : Prop :=
  receive ∈ d.cancelled ∨
    ∃ c ∈ d.collections, c.provider = yellowcardName ∧ c.providerRef = some receive

/-- The receives Yellow Card has opened. -/
def Desk.receives (d : Desk) : List String := d.opened.map (·.1)

/-- Nothing is lost. -/
structure Grows (d d' : Desk) : Prop where
  receives : ∀ r ∈ d.receives, r ∈ d'.receives
  cancelled : ∀ r ∈ d.cancelled, r ∈ d'.cancelled
  collections : ∀ c ∈ d.collections, c ∈ d'.collections

theorem Grows.refl (d : Desk) : Grows d d := ⟨fun _ h => h, fun _ h => h, fun _ h => h⟩

theorem Grows.trans {d d' d'' : Desk} (h : Grows d d') (h' : Grows d' d'') : Grows d d'' :=
  ⟨fun r hr => h'.receives r (h.receives r hr), fun r hr => h'.cancelled r (h.cancelled r hr),
    fun c hc => h'.collections c (h.collections c hc)⟩

theorem Settled.grows {d d' : Desk} {r : String} (h : Settled d r) (hg : Grows d d') :
    Settled d' r :=
  h.imp (hg.cancelled r) fun ⟨c, hc, hr⟩ => ⟨c, hg.collections c hc, hr⟩

theorem grows_applyAll (ws : List Write) (d : Desk) : Grows d (applyAll ws d) := by
  induction ws generalizing d with
  | nil => exact .refl d
  | cons w ws ih =>
    refine Grows.trans ?_ (ih _)
    cases w
    · exact ⟨fun _ h => h, fun _ h => h, fun _ h => List.mem_append_left _ h⟩
    · exact ⟨fun _ h => h, fun _ h => h, fun _ h => h⟩

theorem grows_submitted (r : String) (new : NewReceive) (d : Desk) : Grows d (d.submitted r new) :=
  ⟨fun r' h => by rw [Desk.receives, Desk.submitted,
    List.map_append]; exact List.mem_append_left _ h,
    fun _ h => h, fun _ h => h⟩

theorem grows_withCancelled (r : String) (d : Desk) : Grows d (d.withCancelled r) :=
  ⟨fun _ h => h, fun _ h => List.mem_append_left _ h, fun _ h => h⟩

theorem receives_applyAll (ws : List Write) (d : Desk) : (applyAll ws d).receives = d.receives := by
  induction ws generalizing d with
  | nil => rfl
  | cons w ws ih =>
    rw [applyAll_cons, ih]
    cases w <;> rfl

/-! ### What a call has opened -/

/-- Among the changes of a call is the opening of a receive. -/
def HasOpened (made : List (Desk × Desk)) (r : String) : Prop :=
  ∃ x ∈ made, r ∈ x.2.receives ∧ r ∉ x.1.receives

/-- After one of its changes a receive is settled. -/
def HasSettled (made : List (Desk × Desk)) (r : String) : Prop := ∃ x ∈ made, Settled x.2 r

/-- What a call has opened it has settled, but for the receive it has in hand. -/
def Owes (hand : Option String) (made : List (Desk × Desk)) : Prop :=
  ∀ r, HasOpened made r → HasSettled made r ∨ hand = some r

theorem HasSettled.cons {made : List (Desk × Desk)} {r : String} (h : HasSettled made r)
    (x : Desk × Desk) : HasSettled (x :: made) r :=
  let ⟨y, hy, hs⟩ := h
  ⟨y, List.mem_cons_of_mem _ hy, hs⟩

/-- One more change, after which what was in hand and what it opens is settled or in hand. -/
theorem Owes.cons {hand hand' : Option String} {made : List (Desk × Desk)} (h : Owes hand made)
    {d d' : Desk} (hhand : ∀ r, hand = some r → Settled d' r ∨ hand' = some r)
    (hnew : ∀ r ∈ d'.receives, r ∉ d.receives → Settled d' r ∨ hand' = some r) :
    Owes hand' ((d, d') :: made) := by
  intro r hr
  have hto : Settled d' r ∨ hand' = some r → HasSettled ((d, d') :: made) r ∨ hand' = some r :=
    Or.imp_left fun hs => ⟨(d, d'), List.mem_cons_self, hs⟩
  obtain ⟨x, hx, hopen⟩ := hr
  rcases List.mem_cons.1 hx with rfl | hx
  · exact hto (hnew r hopen.1 hopen.2)
  · rcases h r ⟨x, hx, hopen⟩ with hs | hh
    · exact .inl (hs.cons _)
    · exact hto (hhand r hh)

/-! ### Where a call stands -/

/-- The insert of a row does not fail: its texts can be stored, and no other request has its
reference or its receive. -/
def Unrefused : Label → Desk → Prop
  | .keyed row, _ => Storable row = true
  | .inserting row, d => d.unclaimed row = true
  | _, _ => True

instance (l : Label) (d : Desk) : Decidable (Unrefused l d) := by
  cases l <;> unfold Unrefused <;> infer_instance

/-- A statement that loses nothing. -/
def Keeps {A : Type} : Tx A → Prop
  | .atomic u _ => ∀ d, Grows d (u d)
  | .fresh _ | .query _ | .read _ | .lock _ _ | .commit _ | .rollback _ => True
  | .ret _ | .fail _ | .write _ _ | .mark _ _ => False

theorem Keeps.bind {A B : Type} {p : Tx B} {g : B → Tx A} (h : Keeps p) : Keeps (p.bind g) := by
  cases p with
  | ret | fail | write | mark => exact h.elim
  | _ => exact h

/-- A statement of a call, with what it has opened settled or in hand. -/
def Stand {A : Type} (p : Tx A) (loc : Local Desk Write Key Label) : Prop :=
  Owes loc.label.receive loc.made ∧ Keeps p

theorem Stand.bind {A B : Type} {p : Tx B} {g : B → Tx A} {loc : Local Desk Write Key Label}
    (h : Stand p loc) : Stand (p.bind g) loc := ⟨h.1, h.2.bind⟩

/-- The end of a call: what it has opened is settled. -/
def Ends {A : Type} (_ : Except ApiError A) (loc : Local Desk Write Key Label) : Prop :=
  Owes none loc.made

/-- A call in no transaction, with or without a receive in hand. -/
structure Between (hand : Option String) (loc : Local Desk Write Key Label) : Prop where
  pending : loc.pending = []
  label : loc.label.receive = hand
  owes : Owes hand loc.made

section Points

variable {loc : Local Desk Write Key Label}

theorem Between.stand {hand : Option String} {A : Type} {p : Tx A} (h : Between hand loc)
    (hp : Keeps p) : Stand p loc := ⟨h.label.symm ▸ h.owes, hp⟩

theorem points_findByKey {hand : Option String} (h : Between hand loc) (customerId : Uuid)
    (key : String) : (findByKey customerId key).PointsAt Unrefused Stand
      (fun _ loc' => Between hand loc') loc := by
  unfold findByKey
  split
  · exact h
  · exact ⟨h.stand trivial, fun d _ => h⟩

/-- A cancelled receive is no longer in hand. -/
theorem points_cancelReceive {r : String} (h : Between (some r) loc) :
    (cancelReceive r).PointsAt Unrefused Stand
      (fun res loc' => res = .ok () ∧ Between none loc') loc := by
  refine ⟨h.stand (grows_withCancelled r), fun d _ => ⟨rfl, h.pending, rfl, ?_⟩⟩
  refine h.owes.cons (fun r' he => .inl ?_) fun r' hr hn => absurd hr hn
  obtain rfl := Option.some.inj he
  exact .inl (List.mem_append_right _ (List.mem_singleton_self _))

/-- The partner side of a request is open, and the receive it may have is in hand. -/
def Ready (state : AppState) (res : Except ApiError Opened) (loc : Local Desk Write Key Label) :
    Prop :=
  match res with
  | .ok opened => Between opened.providerRef loc ∧ ∀ r, opened.providerRef = some r →
      opened.provider = yellowcardName ∧ state.yellowcard = true
  | .error _ => Between none loc

theorem points_openYellowcard (h : Between none loc) (rfc3339 : String → Option Time)
    (state : AppState) (session : Session) (id : Uuid) (reference : String) (amountMinor : ℤ)
    (note : Option String) (expiresAt : Time) (answer : Except ApiError OpenedReceive) :
    (openYellowcard rfc3339 state session id reference amountMinor note expiresAt answer).PointsAt
      Unrefused Stand (Ready state) loc := by
  simp only [openYellowcard, Prog.bind_eq, Prog.pure_eq, Prog.bind]
  split
  case isTrue => exact h
  case isFalse hyc =>
  refine ⟨h.stand trivial, fun d _ => ?_⟩
  dsimp only
  split
  case h_1 => exact h
  case h_2 contact _ =>
  split
  case h_1 => exact h
  case h_2 receive =>
  refine ⟨h.stand (grows_submitted _ _), fun d' _ => ?_⟩
  have hopened : Between (some receive.id) ((loc.changed d' (d'.submitted receive.id
      { sequenceId := id
        amountMinor
        reason := note.getD ("Payment request " ++ reference)
        businessName := contact.legalName
        email := contact.email })).at' (.opened receive.id)) := by
    refine ⟨h.pending, rfl, h.owes.cons (by simp) fun r hr hn => .inr ?_⟩
    rw [Desk.receives, Desk.submitted, List.map_append, List.mem_append] at hr
    rw [List.mem_singleton.1 (hr.resolve_left hn)]
  simp only [Prog.PointsAt]
  split
  case h_1 =>
    exact points_bind_of (points_cancelReceive hopened) (fun _ _ => .bind) (fun _ _ hc => hc.2)
      fun _ _ hc => hc.2
  case h_2 bank _ => exact ⟨hopened, fun _ _ => ⟨rfl, by simpa using hyc⟩⟩

theorem points_openPartner (h : Between none loc) (rfc3339 : String → Option Time)
    (state : AppState) (session : Session) (id : Uuid) (reference : String) (amount : Money)
    (note : Option String) (expiresAt : Time) (answer : Except ApiError OpenedReceive) :
    (openPartner rfc3339 state session id reference amount note expiresAt answer).PointsAt
      Unrefused Stand (Ready state) loc := by
  simp only [openPartner, Prog.bind_eq, Prog.pure_eq, Prog.bind]
  split
  case h_1 => exact points_openYellowcard h ..
  case h_2 =>
    refine ⟨h.stand trivial, fun d _ => ?_⟩
    dsimp only
    split
    case h_1 => exact h
    case h_2 => exact ⟨h, by rintro _ ⟨⟩⟩
  case h_3 => exact h

/-- The insert of a row that is not refused puts it in, or finds its key taken. -/
theorem points_insertCollection {row : CollectionRow} (h : Between row.providerRef loc) :
    (insertCollection row).PointsAt Unrefused Stand
      (fun res loc' => Owes row.providerRef loc'.made ∧ loc'.label.receive = row.providerRef ∧
        (res = .ok false ∨ res = .ok true ∧ loc'.pending = [.insertCollection row])) loc := by
  have hst : ∀ {A : Type} {p : Tx A} {loc' : Local Desk Write Key Label}, loc'.made = loc.made →
      loc'.label.receive = row.providerRef → Keeps p → Stand p loc' :=
    fun hm hl hp => ⟨hl ▸ hm ▸ h.owes, hp⟩
  -- The last statement, whatever it has locked by then.
  have hlast : ∀ loc' : Local Desk Write Key Label, loc'.made = loc.made → loc'.pending = [] →
      loc'.label = .inserting row →
      Prog.PointsAt Unrefused Stand (fun res loc' => Owes row.providerRef loc'.made ∧
        loc'.label.receive = row.providerRef ∧
        (res = .ok false ∨ res = .ok true ∧ loc'.pending = [.insertCollection row]))
        (Prog.read fun d : Desk => if d.unclaimed row = true then
          Prog.write (.insertCollection row) (Prog.ret true) else Prog.fail .serverError) loc' := by
    intro loc' hm hp hl
    have hr : loc'.label.receive = row.providerRef := by rw [hl]; rfl
    refine ⟨hst hm hr trivial, fun d hd => ?_⟩
    dsimp only
    rw [hl] at hd
    rw [hp, applyAll_nil, if_pos (show d.unclaimed row = true from hd)]
    exact ⟨hm ▸ h.owes, hr, .inr ⟨rfl, by rw [Local.wrote_pending, hp]; rfl⟩⟩
  simp only [insertCollection, lockProviderRef, Prog.bind_eq, Prog.pure_eq, Prog.bind]
  refine ⟨h.stand trivial, fun _ _ _ _ => ⟨hst rfl rfl trivial, fun d hd => ?_⟩⟩
  dsimp only
  rw [show Storable row = true from hd]
  split
  case isTrue hn => cases hn
  case isFalse =>
  split
  case isTrue => exact ⟨h.owes, rfl, .inl rfl⟩
  case isFalse =>
  refine ⟨hst rfl rfl trivial, fun _ _ _ _ => ?_⟩
  split
  case h_1 r hr => exact ⟨hst rfl rfl trivial, fun _ _ _ _ => hlast _ rfl h.pending rfl⟩
  case h_2 => exact hlast _ rfl h.pending rfl

theorem points_closeReceive {state : AppState} {opened : Opened}
    (h : Ready state (.ok opened) loc) : (closeReceive state opened).PointsAt Unrefused Stand
      (fun res loc' => res = .ok () ∧ Between none loc') loc := by
  unfold closeReceive
  split
  case h_1 r hr =>
    rw [(h.2 r hr).2]
    exact points_cancelReceive (hr ▸ h.1)
  case h_2 hr => exact ⟨rfl, hr ▸ h.1⟩

/-- The commit of the row settles the receive it records. -/
theorem owes_of_stored {opened : Opened} {state : AppState} {made : List (Desk × Desk)}
    (h : Owes opened.providerRef made) (hready : ∀ r, opened.providerRef = some r →
      opened.provider = yellowcardName ∧ state.yellowcard = true) {row : CollectionRow}
    (hrow : row.provider = opened.provider ∧ row.providerRef = opened.providerRef)
    (w : AuditRow) (d : Desk) :
    Owes none ((d, applyAll [.insertCollection row, .insertAudit w] d) :: made) := by
  refine h.cons (fun r hr => .inl (.inr ⟨row, ?_, ?_, hrow.2.trans hr⟩)) fun r hr hn => ?_
  · exact List.mem_append_right _ (List.mem_singleton_self _)
  · exact hrow.1.trans (hready r hr).1
  · rw [receives_applyAll] at hr
    exact absurd hr hn

theorem points_storeCollection {state : AppState} {opened : Opened}
    (h : Ready state (.ok opened) loc) (session : Session) (input : CreateInput)
    (payerName note : Option String) (id : Uuid) (reference : String) :
    (storeCollection state session input payerName note id reference opened).PointsAt Unrefused
      Stand Ends loc := by
  simp only [storeCollection, Prog.bind_eq, Prog.pure_eq, Prog.bind]
  refine ⟨h.1.stand trivial, fun d _ => ?_⟩
  dsimp only
  generalize hrow : newRow session input payerName note id reference opened d.clock = row
  have href : row.provider = opened.provider ∧ row.providerRef = opened.providerRef :=
    hrow ▸ ⟨rfl, rfl⟩
  have hid : row.id = id := hrow ▸ rfl
  refine points_bind_of (points_insertCollection (href.2.symm ▸ h.1)) (fun _ _ => .bind) ?_
    fun e loc' he => ?_
  · rintro ok loc₁ ⟨howes, hl, hok | ⟨hok, hp⟩⟩ <;> cases hok
    all_goals rw [href.2] at howes hl
    · -- Another request has the key.
      have hready : Ready state (.ok opened) loc₁.ended := ⟨⟨rfl, hl, howes⟩, h.2⟩
      refine ⟨⟨hl.symm ▸ howes, trivial⟩,
        points_bind_of (points_closeReceive hready) (fun _ _ => .bind) ?_ ?_⟩
      · rintro - loc₂ ⟨-, h₂⟩
        refine points_bind_of (points_findByKey h₂ _ _) (fun _ _ => .bind) (fun s loc₃ h₃ => ?_)
          fun _ _ h₃ => h₃.owes
        cases s <;> exact h₃.owes
      · rintro e loc₂ ⟨he, -⟩
        cases he
    · have hst : ∀ {A : Type} {p : Tx A} {loc' : Local Desk Write Key Label},
          loc'.made = loc₁.made → loc'.label = loc₁.label → Keeps p → Stand p loc' :=
        fun hm hl' hk => ⟨by rw [hm, hl', hl]; exact howes, hk⟩
      simp only [findById, selectById, Prog.bind_eq, Prog.pure_eq, Prog.bind]
      refine ⟨hst rfl rfl trivial, fun d' _ => ?_⟩
      dsimp only
      -- The transaction sees its own row.
      have hfound : (((applyAll loc₁.pending d').collections.find? fun c => c.id = id)).isSome := by
        rw [hp, List.find?_isSome]
        exact ⟨row, List.mem_append_right _ (List.mem_singleton_self _), by simpa using hid⟩
      obtain ⟨c, hc⟩ := Option.isSome_iff_exists.1 hfound
      rw [hc]
      refine ⟨hst rfl rfl trivial, fun d'' _ => ?_⟩
      rw [Local.wrote_pending, hp]
      exact owes_of_stored howes h.2 href _ d''
  · obtain ⟨-, -, he | ⟨he, -⟩⟩ := he <;> cases he

/-- A call settles the receive it has opened. -/
theorem points_createCollection (h : Between none loc) (rfc3339 : String → Option Time)
    (state : AppState) (session : Session) (input : CreateInput) (body : String)
    (answer : Except ApiError OpenedReceive) :
    (createCollection rfc3339 state session input body answer).PointsAt Unrefused Stand
      Ends loc := by
  simp only [createCollection, Prog.bind_eq, Prog.pure_eq, Prog.bind]
  generalize byteLen (trim input.idempotencyKey) = len
  split
  case isTrue => exact h.owes
  case isFalse =>
  refine points_bind_of (points_findByKey h _ _) (fun _ _ => .bind) (fun found loc₁ h₁ => ?_)
    fun _ _ h₁ => h₁.owes
  split
  case h_1 => exact h₁.owes
  case h_2 =>
  split
  case isTrue => exact h₁.owes
  case isFalse =>
  split
  case h_1 => exact h₁.owes
  case h_2 => exact h₁.owes
  case h_3 payerName note _ _ =>
  refine ⟨h₁.stand trivial, fun d _ => ?_⟩
  dsimp only
  split
  case h_1 => exact h₁.owes
  case h_2 expiresAt _ =>
  refine ⟨h₁.stand trivial, fun id => ?_⟩
  have h₂ : Between none (loc₁.draw id) := ⟨h₁.pending, h₁.label, h₁.owes⟩
  exact points_bind_of (points_openPartner h₂ ..) (fun _ _ => .bind)
    (fun opened loc₃ h₃ => points_storeCollection h₃ ..) fun _ _ h₃ => h₃.owes

end Points

/-! ### Every run -/

/-- A call of `createCollection`, with what Yellow Card answers. -/
structure Creation where
  rfc3339 : String → Option Time
  state : AppState
  session : Session
  input : CreateInput
  body : String
  answer : Except ApiError OpenedReceive

/-- Its program. -/
def Creation.prog (c : Creation) : Tx Selected :=
  createCollection c.rfc3339 c.state c.session c.input c.body c.answer

/-- Besides the calls, time passes. -/
inductive Env : Desk → Desk → Prop
  | tick {d : Desk} (now : Time) : d.clock ≤ now → Env d { d with clock := now }

variable {ι : Type}

/-- Any number of calls that have not begun. -/
def creating (creations : ι → Creation) (d : Desk) : Sys ι Desk Write Key Label ApiError Selected :=
  ⟨d, fun i => .start (creations i).prog⟩

/-- No call fails with a receive in hand: it is not cut off there, and its insert is not refused. -/
def Unbroken (e : Event ι) (s : Sys ι Desk Write Key Label ApiError Selected) : Prop :=
  match e with
  | .crash i => (s.calls i).label.receive = none
  | .go i => Unrefused (s.calls i).label s.shared
  | .env => True

instance (e : Event ι) (s : Sys ι Desk Write Key Label ApiError Selected) :
    Decidable (Unbroken e s) := by
  cases e <;> unfold Unbroken <;> infer_instance

/-- Every receive is accounted for by the call that has opened it. -/
structure Accounted (d₀ : Desk) (s : Sys ι Desk Write Key Label ApiError Selected) : Prop where
  points : ∀ i, (s.calls i).PointsAt Unrefused Stand Ends
  made : ∀ i, ∀ x ∈ (s.calls i).made, Grows x.2 s.shared
  opened : ∀ r ∈ s.shared.receives, r ∈ d₀.receives ∨ ∃ i, HasOpened (s.calls i).made r
  crashed : ∀ i made, s.calls i = .crashed made → Owes none made

variable {d₀ : Desk} {s : Sys ι Desk Write Key Label ApiError Selected}

/-- A receive is settled, or a call has it in hand. -/
theorem Accounted.settled (h : Accounted d₀ s) {r : String} (hr : r ∈ s.shared.receives) :
    r ∈ d₀.receives ∨ Settled s.shared r ∨ ∃ i, (s.calls i).label.receive = some r := by
  refine (h.opened r hr).imp_right fun ⟨i, hi⟩ => ?_
  have hgrown : HasSettled (s.calls i).made r → Settled s.shared r :=
    fun ⟨x, hx, hs⟩ => hs.grows (h.made i x hx)
  have hp := h.points i
  cases hc : s.calls i with
  | run p loc w =>
    rw [hc] at hp hi hgrown
    exact (hp.1.1 r hi).imp hgrown fun hl => ⟨i, by rw [hc]; exact hl⟩
  | done res made =>
    rw [hc] at hp hi hgrown
    obtain ⟨loc, rfl, he⟩ := hp
    exact .inl (hgrown ((he r hi).resolve_right (by simp)))
  | crashed made =>
    rw [hc] at hi hgrown
    exact .inl (hgrown ((h.crashed i made hc r hi).resolve_right (by simp)))

theorem Accounted.start (creations : ι → Creation) (d : Desk) :
    Accounted d (creating creations d) := by
  have hmade : ∀ i, ((creating creations d).calls i).made = [] := fun i => Call.made_settle _ _
  refine ⟨fun i => Call.points_settle (points_createCollection ⟨rfl, rfl, ?_⟩ ..), fun i x hx => ?_,
    fun r hr => .inl hr, fun i made hc => ?_⟩
  · rintro r ⟨x, hx, -⟩
    cases hx
  · rw [hmade] at hx
    cases hx
  · obtain rfl : made = [] := (congrArg Call.made hc).symm.trans (hmade i)
    rintro r ⟨x, hx, -⟩
    cases hx

/-- A statement loses nothing, and a receive it opens is among the changes of its call. -/
theorem Accounted.moved (h : Accounted d₀ s) {i : ι} {free : Key → Bool}
    {c : Call Desk Write Key Label ApiError Selected} {d : Desk}
    (hn : (s.calls i).next free s.shared = some (d, c)) :
    Grows s.shared d ∧ (∀ x ∈ c.made, x ∈ (s.calls i).made ∨ x = (s.shared, d)) ∧
      (∀ x ∈ (s.calls i).made, x ∈ c.made) ∧
      ∀ r ∈ d.receives, r ∈ s.shared.receives ∨ HasOpened c.made r := by
  rcases Call.points_cases (h.points i) hn with ⟨hm, hd⟩ | ⟨p, loc, w, hc, hm, hp, hq⟩
  · rw [hm]
    refine ⟨?_, fun x hx => .inl hx, fun x hx => hx, fun r hr => .inl ?_⟩
    · rcases hd with rfl | rfl
      · exact .refl _
      · exact ⟨fun _ h => h, fun _ h => h, fun _ h => h⟩
    · rcases hd with rfl | rfl <;> exact hr
  · have hg : Grows s.shared d := by
      obtain ⟨q, rfl, rfl⟩ | ⟨u, f, rfl, rfl⟩ := hq
      · exact grows_applyAll _ _
      · exact hp.2 _
    rw [hm, hc]
    refine ⟨hg, fun x hx => (List.mem_cons.1 hx).symm, fun x hx => List.mem_cons_of_mem _ hx,
      fun r hr => ?_⟩
    by_cases hold : r ∈ s.shared.receives
    · exact .inl hold
    · exact .inr ⟨_, List.mem_cons_self, hr, hold⟩

variable [DecidableEq ι]

theorem Accounted.step (h : Accounted d₀ s) {e : Event ι}
    {s' : Sys ι Desk Write Key Label ApiError Selected} (hst : Step Env e s s')
    (hu : Unbroken e s) : Accounted d₀ s' := by
  have hpoints : ∀ i, (s'.calls i).PointsAt Unrefused Stand Ends := fun i =>
    points_of_step (h.points i) (by rintro rfl; exact hu) hst
  cases e with
  | env =>
    obtain ⟨d, ⟨now, -⟩, rfl⟩ := hst
    exact ⟨hpoints, fun i x hx => { h.made i x hx with }, h.opened, h.crashed⟩
  | crash j =>
    obtain ⟨p, loc, w, hj, rfl⟩ := hst
    -- A crash takes nothing back; the call had no receive in hand.
    have hmade : ∀ i, (Function.update s.calls j (.crashed loc.made) i).made =
      (s.calls i).made := by
      intro i
      by_cases hij : i = j
      · rw [hij, Function.update_self, hj]
        rfl
      · rw [Function.update_of_ne hij]
    refine ⟨hpoints, fun i x hx => h.made i x (hmade i ▸ hx), fun r hr => ?_, fun i made hc => ?_⟩
    · exact (h.opened r hr).imp_right fun ⟨i, hi⟩ => ⟨i, (hmade i).symm ▸ hi⟩
    · by_cases hij : i = j
      · subst hij
        have hp := h.points i
        have hl : (s.calls i).label.receive = none := hu
        rw [hj] at hp hl
        obtain rfl : loc.made = made := by simpa using hc
        exact (show loc.label.receive = none from hl) ▸ hp.1.1
      · exact h.crashed i made (by simpa only [Function.update_of_ne hij] using hc)
  | go j =>
    obtain ⟨free, -, d, c, hn, rfl⟩ := hst
    -- Each receive opened by the step is in the commits of the call that took it.
    obtain ⟨hg, hnew, hold, hopen⟩ := h.moved hn
    have hkeep : ∀ i, ∀ x ∈ (s.calls i).made, x ∈ (Function.update s.calls j c i).made := by
      intro i x hx
      by_cases hij : i = j
      · subst hij
        rw [Function.update_self]
        exact hold x hx
      · rwa [Function.update_of_ne hij]
    refine ⟨hpoints, fun i x hx => ?_, fun r hr => ?_, fun i made hc => ?_⟩
    · by_cases hij : i = j
      · subst hij
        replace hx : x ∈ (Function.update s.calls i c i).made := hx
        rw [Function.update_self] at hx
        rcases hnew x hx with hx | rfl
        · exact (h.made i x hx).trans hg
        · exact .refl _
      · replace hx : x ∈ (Function.update s.calls j c i).made := hx
        rw [Function.update_of_ne hij] at hx
        exact (h.made i x hx).trans hg
    · rcases hopen r hr with hr | hr
      · exact (h.opened r hr).imp_right fun ⟨i, x, hx, ho⟩ => ⟨i, x, hkeep i x hx, ho⟩
      · refine .inr ⟨j, ?_⟩
        show HasOpened (Function.update s.calls j c j).made r
        rw [Function.update_self]
        exact hr
    · by_cases hij : i = j
      · subst hij
        replace hc : Function.update s.calls i c i = .crashed made := hc
        rw [Function.update_self] at hc
        exact absurd hc (Call.ne_crashed_of_next hn made)
      · exact h.crashed i made (by simpa only [Function.update_of_ne hij] using hc)

/-- **No orphans**: in every run in which no call fails with a receive in hand, once all calls have
ended each receive that was opened is recorded by a request or was cancelled. -/
theorem noOrphan_of_reach (creations : ι → Creation)
    (hr : Reach (fun e s s' => Step Env e s s' ∧ Unbroken e s) (creating creations d₀) s)
    (hend : ∀ i, (s.calls i).ended = true) {r : String} (hopened : r ∈ s.shared.receives)
    (hnew : r ∉ d₀.receives) : Settled s.shared r := by
  have h : Accounted d₀ s := hr.invariant (.start creations d₀) fun _ _ _ _ hi hst =>
    hi.step hst.1 hst.2
  rcases (h.settled hopened).resolve_left hnew with hs | ⟨i, hi⟩
  · exact hs
  · have he := hend i
    revert hi he
    cases s.calls i <;> simp [Call.ended, Call.label, Label.receive]

/-! ### Two calls with one key -/

/-- The database of a customer. -/
def sampleDesk : Desk := { contacts := [⟨1, "Ada Ltd", none⟩] }

/-- A creation under the key `"request-1"`, for which Yellow Card opens a receive. -/
def sampleCreation (receive : String) : Creation :=
  { rfc3339 := fun _ => none
    state :=
      { settlementOnchain := false
        complianceAmountThresholdMinor := 0
        maxTransferAmountMinor := 0
        maxAggregateExposureMinor := 0
        yellowcard := true
        bridgeWebhookKey := false
        transferRef := fun id => id
        isWord := Char.isAlphanum }
    session := ⟨1, 1, "customer"⟩
    input := ⟨"request-1", ⟨5000, .ngn⟩, none, none, none⟩
    body := receive
    answer := .ok ⟨receive, none, some ⟨none, some "0123456789", none, none⟩⟩ }

/-- Two of them. -/
def sampleCreations : Fin 2 → Creation
  | 0 => sampleCreation "first"
  | 1 => sampleCreation "second"

/-- A call whose database fails between the opening of its receive and its transaction leaves one
that nobody records, though it is repeated with success. -/
theorem orphan_of_failure :
    ∃ s, Reach (Step Env) (creating sampleCreations sampleDesk) s ∧
      (∀ i, (s.calls i).ended = true) ∧
      "first" ∈ s.shared.receives ∧ ¬ Settled s.shared "first" := by
  obtain ⟨s, hr, h⟩ := exists_reach_of_play Env [0, 1]
    (schedule [(0, 5)] ++ [.crash 0] ++ schedule [(1, 16)]) (creating sampleCreations sampleDesk)
    (fun s => (s.calls 0).ended && (s.calls 1).ended && decide ("first" ∈ s.shared.receives) &&
      decide ("first" ∉ s.shared.cancelled) &&
      s.shared.collections.all fun c => c.providerRef ≠ some "first")
    (by decide) (by simp [schedule]) (by decide +kernel)
  simp only [Bool.and_eq_true, decide_eq_true_eq, List.all_eq_true] at h
  obtain ⟨⟨⟨⟨h₀, h₁⟩, hopened⟩, hkept⟩, hnone⟩ := h
  refine ⟨s, hr, Fin.forall_fin_two.2 ⟨h₀, h₁⟩, hopened, ?_⟩
  · rintro (hs | ⟨c, hc, -, href⟩)
    · exact hkept hs
    · exact hnone c hc href

/-- Of two calls at once the one that comes second cancels its receive. -/
theorem recorded_of_race :
    ∃ s, Reach (Step Env) (creating sampleCreations sampleDesk) s ∧
      s.shared.receives = ["first", "second"] ∧ Settled s.shared "first" ∧
      Settled s.shared "second" := by
  have h : ((playChecked (fun e s => decide (Unbroken e s)) [0, 1]
      (schedule [(0, 5), (1, 5), (0, 11), (1, 7)])
      (creating sampleCreations sampleDesk)).any fun s =>
      decide (s.shared.receives = ["first", "second"]) && (s.calls 0).ended && (s.calls 1).ended) =
      true := by decide +kernel
  obtain ⟨s, hs, h⟩ := (Option.any_eq_true ..).1 h
  simp only [Bool.and_eq_true, decide_eq_true_eq] at h
  obtain ⟨⟨hrec, h₀⟩, h₁⟩ := h
  have hchecked : Reach (fun e s s' => Step Env e s s' ∧ decide (Unbroken e s) = true)
      (creating sampleCreations sampleDesk) s :=
        reach_of_playChecked (by decide) (env_schedule _) hs
  have hr : Reach (fun e s s' => Step Env e s s' ∧ Unbroken e s)
      (creating sampleCreations sampleDesk) s :=
    hchecked.mono fun _ _ _ hst => ⟨hst.1, of_decide_eq_true hst.2⟩
  have hend : ∀ i, (s.calls i).ended = true := fun i => match i with
    | 0 => h₀
    | 1 => h₁
  exact ⟨s, hr.mono fun _ _ _ hst => hst.1, hrec,
    noOrphan_of_reach sampleCreations hr hend (by simp [hrec]) List.not_mem_nil,
    noOrphan_of_reach sampleCreations hr hend (by simp [hrec]) List.not_mem_nil⟩

end Kimana.Opening
