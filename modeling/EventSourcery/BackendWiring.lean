import EventSourcery.Containers
import EventSourcery.Dto
import EventSourcery.Runs

/-!
# What backends are made of

A backend is a container of providers, and a backend in tenant mode is a copy of it, with the same
providers but for the tenant. Event stores, outboxes and subscribers are made anew whenever they are
asked for. What they share is a storage, the listeners and the outbox storage, which are made once:
the storage when the backend is, the other two when they are first needed, by whichever of the
copies needs them first.
-/
namespace EventSourcery.BackendWiring
open Containers Runs

/-- The types that providers are registered for. -/
inductive Key where
  | tenantId
  | eventRegistry
  | encryptionStrategy
  | encryptionKeyStorageStrategy
  | encryption
  | serde
  | storageStrategy
  | eventStore
  | outbox
  | outboxStorageStrategy
  | subscriptionStrategy
  | positionPhase
  | listeners
  | dispatcher
  | inMemoryConfig
  | storage
  | outboxFiltererStrategy
  | inMemoryOutboxStorageStrategy
  deriving DecidableEq

/-- The objects, each with those that it was made of. An object that can be told from others of
its kind has a number. -/
inductive Component (G : Type) where
  /-- An object that the caller has given. -/
  | given (object : G)
  | tenantId (tenantId : TenantId)
  /-- The registry and the storage that are made with a backend. -/
  | eventRegistry (family : ℕ)
  | storage (family : ℕ)
  | noEncryptionStrategy
  | noKeyStorageStrategy
  | scopedKeyStorage (keyStorage : G) (tenantId : Component G)
  | encryption (registry strategy keyStorage : Component G)
  | serde (registry encryption : Component G)
  | listeners (number : ℕ)
  | dispatcher (serde listeners : Component G)
  | inMemoryConfig (outboxAttempts : ℕ)
  | inMemoryOutbox (number : ℕ) (filterer : Component G) (maxPublishAttempts : ℕ)
  | noOutbox
  | inMemoryStorageStrategy (storage dispatcher : Component G) (outbox : Option (Component G))
      (tenantId : Component G)
  | eventStore (storageStrategy serde : Component G)
  | outbox (strategy serde : Component G)
  | inMemorySubscriptionStrategy (storage : Component G)
  | subscriptionBuilder (serde strategy : Component G)

inductive WiringError where
  | noProviderConfigured (message : String)
  | attributeError
  deriving DecidableEq

/-- The `result` of a singleton, for each call of `singleton`. -/
inductive Cell where
  /-- In the creation of a backend. -/
  | listeners (family : ℕ)
  /-- In `with_outbox`. -/
  | outbox (call : ℕ)
  deriving DecidableEq

section Code
variable {G : Type}

abbrev Backend (G : Type) := Container Key Cell (Component G) WiringError

def Component.outboxAttempts : Component G → Make Cell (Component G) (Failure Key WiringError) ℕ
  | .inMemoryConfig outboxAttempts => return outboxAttempts
  | _ => .raise (.raised .attributeError)

/-- `Backend.__init__` -/
def backend (family : ℕ) : Backend G :=
  Container.empty
  |>.set .tenantId (value (.tenantId defaultTenant))
  |>.set .eventRegistry (value (.eventRegistry family))
  |>.set .encryptionStrategy (value .noEncryptionStrategy)
  |>.set .encryptionKeyStorageStrategy (fun c => do
      let _ ← c.getItem .tenantId
      return .noKeyStorageStrategy)
  |>.set .encryption (fun c => do
      return .encryption (← c.getItem .eventRegistry) (← c.getItem .encryptionStrategy)
        (← c.getItem .encryptionKeyStorageStrategy))
  |>.set .serde (fun c => do
      return .serde (← c.getItem .eventRegistry) (← c.getItem .encryption))
  |>.set .storageStrategy (notConfigured
      (.noProviderConfigured "Use one of pyES backends: SQLAlchemy, Django or KurrentDB"))
  |>.set .eventStore (fun c => do
      return .eventStore (← c.getItem .storageStrategy) (← c.getItem .serde))
  |>.set .outbox (fun c => do
      return .outbox (← c.getItem .outboxStorageStrategy) (← c.getItem .serde))
  |>.set .outboxStorageStrategy (value .noOutbox)
  |>.set .subscriptionStrategy (notConfigured
      (.noProviderConfigured "Use one of pyES backends: SQLAlchemy, Django or KurrentDB"))
  |>.set .positionPhase (fun c => do
      return .subscriptionBuilder (← c.getItem .serde) (← c.getItem .subscriptionStrategy))

/-- `TransactionalBackend.__init__` -/
def transactionalBackend (family : ℕ) : Backend G :=
  backend family
  |>.set .listeners (singleton (.listeners family) fun _ => do return .listeners (← .new))
  |>.set .dispatcher (fun c => do
      return .dispatcher (← c.getItem .serde) (← c.getItem .listeners))

/-- `InMemoryBackend.__init__` -/
def inMemoryBackend (family : ℕ) : Backend G :=
  transactionalBackend family
  |>.set .inMemoryConfig
      (notConfigured (.noProviderConfigured "Configure backend with `.configure(config)`"))
  |>.set .storage (value (.storage family))
  |>.set .storageStrategy (fun c => do
      return .inMemoryStorageStrategy (← c.getItem .storage) (← c.getItem .dispatcher)
        (← c.get .inMemoryOutboxStorageStrategy) (← c.getItem .tenantId))
  |>.set .subscriptionStrategy (fun c => do
      return .inMemorySubscriptionStrategy (← c.getItem .storage))

/-- `in_tenant_mode`; what a new backend makes for itself is replaced by the providers of the
copied one. -/
def inTenantMode (tenantId : TenantId) (c : Backend G) : Backend G :=
  c.set .tenantId (value (.tenantId tenantId))

/-- By default there are 3 attempts. -/
def configure (config : Option ℕ) (c : Backend G) : Backend G :=
  c.set .inMemoryConfig (value (.inMemoryConfig (config.getD 3)))

def withOutbox (call : ℕ) (filterer : G) (c : Backend G) : Backend G :=
  c.set .outboxFiltererStrategy (value (.given filterer))
  |>.set .inMemoryOutboxStorageStrategy (singleton (.outbox call) fun c => do
      let filterer ← c.getItem .outboxFiltererStrategy
      let config ← c.getItem .inMemoryConfig
      let attempts ← config.outboxAttempts
      return .inMemoryOutbox (← .new) filterer attempts)
  |>.set .outboxStorageStrategy (fun c => c.getItem .inMemoryOutboxStorageStrategy)

def withEncryption (strategy keyStorage : G) (c : Backend G) : Backend G :=
  c.set .encryptionStrategy (value (.given strategy))
  |>.set .encryptionKeyStorageStrategy (fun c => do
      return .scopedKeyStorage keyStorage (← c.getItem .tenantId))

/-- `backend[EventRegistry] = registry` -/
def withRegistry (registry : G) (c : Backend G) : Backend G :=
  c.set .eventRegistry (value (.given registry))

/-- All backends there are, and what they share. -/
structure World (G : Type) where
  backends : List (Backend G) := []
  store : Store Cell (Component G) := {}
  families : ℕ := 0
  outboxes : ℕ := 0

inductive Action (G : Type) where
  /-- `InMemoryBackend()` -/
  | create
  | inTenantMode (backend : ℕ) (tenantId : TenantId)
  | configure (backend : ℕ) (config : Option ℕ)
  | withOutbox (backend : ℕ) (filterer : G)
  | withEncryption (backend : ℕ) (strategy keyStorage : G)
  | withRegistry (backend : ℕ) (registry : G)
  | getItem (backend : ℕ) (key : Key)

/-- What is asked of a backend is answered; calls are nested no deeper than the limit. -/
def step (limit : ℕ) (w : World G) :
    Action G → Option (Except (Failure Key WiringError) (Component G)) × World G
  | .create => (none, { w with
      backends := w.backends ++ [inMemoryBackend w.families], families := w.families + 1 })
  | .inTenantMode i tenantId => (none, { w with
      backends := w.backends ++ (w.backends[i]?.map (inTenantMode tenantId)).toList })
  | .configure i config => (none, { w with backends := w.backends.modify i (configure config) })
  | .withOutbox i filterer => (none, { w with
      backends := w.backends.modify i (withOutbox w.outboxes filterer)
      outboxes := w.outboxes + 1 })
  | .withEncryption i strategy keyStorage => (none, { w with
      backends := w.backends.modify i (withEncryption strategy keyStorage) })
  | .withRegistry i registry => (none, { w with
      backends := w.backends.modify i (withRegistry registry) })
  | .getItem i key =>
      match w.backends[i]? with
      | none => (none, w)
      | some c =>
          let r := (c.access limit).getItem key w.store
          (some r.1, { w with store := r.2 })

end Code

/-! ## What a backend is for -/

section Plan
variable {G : Type}

/-- What has been set for a backend. -/
structure Settings (G : Type) where
  family : ℕ
  tenantId : TenantId := defaultTenant
  registry : Option G := none
  /-- The strategy and the key storage. -/
  encryption : Option (G × G) := none
  config : Option ℕ := none
  /-- The call of `with_outbox` and its filterer. -/
  outbox : Option (ℕ × G) := none

namespace Settings
variable (s : Settings G)

def eventRegistry : Component G := s.registry.elim (.eventRegistry s.family) .given

def strategy : Component G := s.encryption.elim .noEncryptionStrategy fun e => .given e.1

/-- The keys are those of the tenant. -/
def keyStorage : Component G :=
  s.encryption.elim .noKeyStorageStrategy fun e => .scopedKeyStorage e.2 (.tenantId s.tenantId)

def encryptionOf : Component G := .encryption s.eventRegistry s.strategy s.keyStorage

def serde : Component G := .serde s.eventRegistry s.encryptionOf

variable (cells : Cell → Option (Component G))

def listeners : Option (Component G) := cells (.listeners s.family)

/-- The outbox storage, if there is one to be. -/
def outboxStorage : Option (Option (Component G)) :=
  match s.outbox with
  | none => some none
  | some outbox => (cells (.outbox outbox.1)).map some

def storageStrategy : Option (Component G) :=
  (s.listeners cells).bind fun listeners => (s.outboxStorage cells).map fun outbox =>
    .inMemoryStorageStrategy (.storage s.family) (.dispatcher s.serde listeners) outbox
      (.tenantId s.tenantId)

/-- What the backend gives, with the singletons that there are. -/
def component : Key → Option (Component G)
  | .tenantId => some (.tenantId s.tenantId)
  | .eventRegistry => some s.eventRegistry
  | .encryptionStrategy => some s.strategy
  | .encryptionKeyStorageStrategy => some s.keyStorage
  | .encryption => some s.encryptionOf
  | .serde => some s.serde
  | .listeners => s.listeners cells
  | .dispatcher => (s.listeners cells).map (.dispatcher s.serde)
  | .inMemoryConfig => s.config.map .inMemoryConfig
  | .storage => some (.storage s.family)
  | .outboxFiltererStrategy => s.outbox.map fun outbox => .given outbox.2
  | .inMemoryOutboxStorageStrategy => (s.outboxStorage cells).bind id
  | .outboxStorageStrategy => (s.outboxStorage cells).map (·.getD .noOutbox)
  | .storageStrategy => s.storageStrategy cells
  | .eventStore => (s.storageStrategy cells).map (.eventStore · s.serde)
  | .outbox => (s.outboxStorage cells).map fun outbox => .outbox (outbox.getD .noOutbox) s.serde
  | .subscriptionStrategy => some (.inMemorySubscriptionStrategy (.storage s.family))
  | .positionPhase =>
      some (.subscriptionBuilder s.serde (.inMemorySubscriptionStrategy (.storage s.family)))

/-- What is raised when a key is asked for, for want of a call of `configure` or of
`with_outbox`. -/
def Lacks (key : Key) : Failure Key WiringError → Prop
  | .raised (.noProviderConfigured _) =>
      s.config = none ∧ (s.outbox ≠ none ∨ key = .inMemoryConfig)
  | .keyError missing => s.outbox = none ∧ missing = key ∧
      (key = .outboxFiltererStrategy ∨ key = .inMemoryOutboxStorageStrategy)
  | _ => False

/-- The providers of a backend with these settings. -/
def container : Backend G := fun key =>
  match key with
  | .tenantId => inTenantMode s.tenantId .empty key
  | .eventRegistry =>
      s.registry.elim (inMemoryBackend s.family key) fun registry =>
        withRegistry registry .empty key
  | .encryptionStrategy | .encryptionKeyStorageStrategy =>
      s.encryption.elim (inMemoryBackend s.family key) fun e => withEncryption e.1 e.2 .empty key
  | .inMemoryConfig =>
      s.config.elim (inMemoryBackend s.family key) fun config => configure (some config) .empty key
  | .outboxFiltererStrategy | .inMemoryOutboxStorageStrategy | .outboxStorageStrategy =>
      s.outbox.elim (inMemoryBackend s.family key) fun o => withOutbox o.1 o.2 .empty key
  | _ => inMemoryBackend s.family key

end Settings

end Plan

section Providers
variable {G : Type} {filterers : List G} {s : Settings G} {e : Failure Key WiringError}

theorem Settings.Lacks.mono {k key : Key} (h : s.Lacks k e)
    (hk : s.outbox = none → k ≠ .inMemoryConfig ∧ k ≠ .outboxFiltererStrategy ∧
      k ≠ .inMemoryOutboxStorageStrategy) : s.Lacks key e := by
  cases e with
  | keyError missing =>
    obtain ⟨hnone, -, hkeys⟩ := h
    exact (hkeys.elim (hk hnone).2.1 (hk hnone).2.2).elim
  | recursionError => exact h.elim
  | raised e =>
    cases e with
    | noProviderConfigured message =>
      refine ⟨h.1, .inl fun hnone => ?_⟩
      exact h.2.elim (absurd hnone) (hk hnone).1
    | attributeError => exact h.elim

/-- The number of a singleton's object. -/
def Component.number : Component G → Option ℕ
  | .listeners number => some number
  | .inMemoryOutbox number _ _ => some number
  | _ => none

/-- What a cell can hold. An outbox storage has the filterer of its call of `with_outbox`. -/
def Fits (filterers : List G) : Cell → Component G → Prop
  | .listeners _, o => ∃ number, o = .listeners number
  | .outbox call, o => ∃ number filterer attempts, filterers[call]? = some filterer ∧
      o = .inMemoryOutbox number (.given filterer) attempts

/-- The objects of different cells are different. -/
structure Inv (filterers : List G) (s : Store Cell (Component G)) : Prop where
  fits : ∀ cell o, s.cells cell = some o → Fits filterers cell o
  numbered : ∀ cell o, s.cells cell = some o → ∃ number < s.next, o.number = some number
  distinct : ∀ cell cell' o, s.cells cell = some o → s.cells cell' = some o → cell = cell'

theorem Inv.next {s : Store Cell (Component G)} (h : Inv filterers s) :
    Inv filterers { s with next := s.next + 1 } where
  fits := h.fits
  numbered cell o hcell := by
    obtain ⟨number, hlt, hnumber⟩ := h.numbered cell o hcell
    exact ⟨number, Nat.lt_succ_of_lt hlt, hnumber⟩
  distinct := h.distinct

/-- A new object in a cell. -/
theorem Inv.fill {s : Store Cell (Component G)} (h : Inv filterers s)
    (s' : Store Cell (Component G)) (hcells : s'.cells = s.cells) {cell : Cell} {o : Component G}
    {number : ℕ}
    (hnumber : o.number = some number) (hnew : s.next ≤ number) (hnext : number < s'.next)
    (hfits : Fits filterers cell o) : Inv filterers (s'.fill cell o) := by
  have hheld : ∀ other o', (s'.fill cell o).cells other = some o' →
      other = cell ∧ o' = o ∨ other ≠ cell ∧ s.cells other = some o' := by
    intro other o' hother
    by_cases heq : other = cell
    · subst heq
      have hself : (s'.fill other o).cells other = some o := Function.update_self ..
      exact .inl ⟨rfl, Option.some.inj (hother.symm.trans hself)⟩
    · refine .inr ⟨heq, ?_⟩
      rw [← hcells]
      exact (Function.update_of_ne heq _ _).symm.trans hother
  have hfresh : ∀ other, s.cells other ≠ some o := by
    intro other hother
    obtain ⟨number', hlt, hnumber'⟩ := h.numbered other o hother
    rw [hnumber] at hnumber'
    cases hnumber'
    omega
  refine ⟨fun other o' hother => ?_, fun other o' hother => ?_, fun other other' o' ho ho' => ?_⟩
  · obtain ⟨rfl, rfl⟩ | ⟨-, hold⟩ := hheld other o' hother
    · exact hfits
    · exact h.fits other o' hold
  · obtain ⟨rfl, rfl⟩ | ⟨-, hold⟩ := hheld other o' hother
    · exact ⟨number, hnext, hnumber⟩
    · obtain ⟨number', hlt, hnumber'⟩ := h.numbered other o' hold
      exact ⟨number', lt_of_lt_of_le hlt (hnew.trans hnext.le), hnumber'⟩
  · obtain ⟨rfl, rfl⟩ | ⟨-, hold⟩ := hheld other o' ho
    · obtain ⟨rfl, -⟩ | ⟨-, hold'⟩ := hheld other' o' ho'
      · rfl
      · exact (hfresh other' hold').elim
    · obtain ⟨rfl, rfl⟩ | ⟨-, hold'⟩ := hheld other' o' ho'
      · exact (hfresh other hold).elim
      · exact h.distinct other other' o' hold hold'

/-- How deep a key asks for other keys. -/
def rank : Key → ℕ
  | .eventStore => 6
  | .storageStrategy => 5
  | .outbox | .positionPhase | .dispatcher => 4
  | .serde => 3
  | .encryption | .outboxStorageStrategy => 2
  | .encryptionKeyStorageStrategy | .inMemoryOutboxStorageStrategy | .subscriptionStrategy => 1
  | _ => 0

/-- The cells that asking for a key can fill. -/
def touches : Key → Set Cell
  | .inMemoryConfig | .outboxFiltererStrategy => ∅
  | _ => Set.univ

variable {a : Access Key Cell (Component G) WiringError} {key : Key}

/-- What the keys of lower rank give. -/
def Lower (filterers : List G) (s : Settings G) (a : Access Key Cell (Component G) WiringError)
    (key : Key) : Prop :=
  ∀ k, rank k < rank key → Yields (Inv filterers) (s.Lacks k) (touches k) (a.getItem k)
    fun cells => s.component cells k

theorem Lower.ask (h : Lower filterers s a key) (k : Key) (hrank : rank k < rank key)
    (hk : s.outbox = none → k ≠ .inMemoryConfig ∧ k ≠ .outboxFiltererStrategy ∧
      k ≠ .inMemoryOutboxStorageStrategy) :
    Yields (Inv filterers) (s.Lacks key) (touches k) (a.getItem k)
      fun cells => s.component cells k :=
  (h k hrank).weaken subset_rfl fun _ hlacks => hlacks.mono hk

/-- A key that there is a provider for from the beginning. -/
theorem Lower.always (h : Lower filterers s a key) (k : Key) (hrank : rank k < rank key)
    (hk : k ≠ .inMemoryConfig ∧ k ≠ .outboxFiltererStrategy ∧ k ≠ .inMemoryOutboxStorageStrategy) :
    Yields (Inv filterers) (s.Lacks key) Set.univ (a.getItem k)
      fun cells => s.component cells k :=
  (h.ask k hrank fun _ => hk).weaken (Set.subset_univ _) fun _ he => he

theorem listeners_yields (family : ℕ) (a : Access Key Cell (Component G) WiringError) :
    Yields (Inv filterers) (s.Lacks key) Set.univ
      (singleton (.listeners family) (fun _ => do return .listeners (← .new)) a)
      fun cells => cells (.listeners family) := by
  have hnew : Safe (Inv filterers) (s.Lacks key) ∅
      (.new >>= fun number => pure (.listeners number : Component G)) :=
    (Safe.new fun _ hs => hs.next).bind fun _ _ _ _ => Safe.pure _
  refine (Yields.singleton hnew (Set.notMem_empty _) fun s s' o hs _ ho => ?_).weaken
    (Set.subset_univ _) fun _ he => he
  cases ho
  exact hs.fill { s with next := s.next + 1 } rfl rfl le_rfl (Nat.lt_succ_self _) ⟨s.next, rfl⟩

theorem config_of_component {s : Settings G} {cells : Cell → Option (Component G)}
    {config : Component G} (h : s.component cells .inMemoryConfig = some config) :
    ∃ attempts, config = .inMemoryConfig attempts := by
  obtain ⟨attempts, -, hconfig⟩ := Option.map_eq_some_iff.1 h
  exact ⟨attempts, hconfig.symm⟩

/-- The outbox storage is made of the filterer of the same call, and the configuration. -/
theorem Lower.outbox (h : Lower filterers s a .inMemoryOutboxStorageStrategy) {call : ℕ}
    {filterer : G} (hset : s.outbox = some (call, filterer))
    (hcall : filterers[call]? = some filterer) {p : Provider Key Cell (Component G) WiringError}
    (hp : withOutbox call filterer .empty .inMemoryOutboxStorageStrategy = some p) :
    Yields (Inv filterers) (s.Lacks .inMemoryOutboxStorageStrategy) Set.univ (p a)
      fun cells => cells (.outbox call) := by
  have hsome : ∀ k : Key, s.outbox = none → k ≠ .inMemoryConfig ∧ k ≠ .outboxFiltererStrategy ∧
      k ≠ .inMemoryOutboxStorageStrategy := by simp [hset]
  have hfilterer := h.ask .outboxFiltererStrategy (by decide) (hsome _)
  have hconfig := h.ask .inMemoryConfig (by decide) (hsome _)
  cases hp
  refine (Yields.singleton ?_ (Set.notMem_empty _) fun s₀ s' o hs _ ho => ?_).weaken
    (Set.subset_univ _) fun _ he => he
  · refine hfilterer.safe.bind fun _ _ _ _ => hconfig.safe.bind fun s₁ config hs₁ hgiven => ?_
    obtain ⟨attempts, rfl⟩ := config_of_component (hconfig.ok s₁ hs₁ config hgiven)
    exact (Safe.pure attempts).bind fun _ _ _ _ =>
      (Safe.new fun _ hs => hs.next).bind fun _ _ _ _ => Safe.pure _
  · obtain ⟨given, s₁, hgiven, ho⟩ := Make.bind_eq_ok ho
    obtain ⟨config, s₂, hmade, ho⟩ := Make.bind_eq_ok ho
    obtain ⟨attempts, s₃, hattempts, ho⟩ := Make.bind_eq_ok ho
    have hran := hfilterer.safe s₀ hs
    have hthis := hfilterer.ok s₀ hs given (congrArg Prod.fst hgiven)
    rw [hgiven] at hran
    have hran' := hconfig.safe s₁ hran.inv
    have hthat := hconfig.ok s₁ hran.inv config (congrArg Prod.fst hmade)
    rw [hmade] at hran'
    obtain ⟨_, rfl⟩ := config_of_component hthat
    cases hattempts
    cases ho
    have hcells : s₂.cells = s₀.cells := funext fun cell =>
      (hran'.untouched cell (Set.notMem_empty _)).trans (hran.untouched cell (Set.notMem_empty _))
    have hgiven : given = .given filterer := by
      have hsame : some (Component.given filterer) = some given := by
        simpa [Settings.component, hset] using hthis
      exact (Option.some.inj hsame).symm
    refine hs.fill { s₂ with next := s₂.next + 1 } hcells rfl (hran.grows.trans hran'.grows).next
      (Nat.lt_succ_self _) ?_
    exact ⟨s₂.next, filterer, attempts, hcall, by rw [hgiven]⟩

theorem container_outbox (s : Settings G) :
    (s.container .inMemoryOutboxStorageStrategy).isSome = s.outbox.isSome := by
  obtain ⟨family, tenantId, registry, encryption, config, outbox⟩ := s
  cases outbox <;> rfl

/-- A backend gives what its settings say. -/
theorem container_yields (hset : ∀ outbox ∈ s.outbox, filterers[outbox.1]? = some outbox.2)
    (hhas : ∀ k, a.has k = (s.container k).isSome) (h : Lower filterers s a key) :
    Yields (Inv filterers) (s.Lacks key) (touches key) (s.container.call a key)
      fun cells => s.component cells key := by
  cases key with
  | tenantId => exact .pure _
  | eventRegistry =>
    obtain ⟨family, tenantId, registry, encryption, config, outbox⟩ := s
    cases registry <;> exact .pure _
  | encryptionStrategy =>
    obtain ⟨family, tenantId, registry, encryption, config, outbox⟩ := s
    cases encryption <;> exact .pure _
  | encryptionKeyStorageStrategy =>
    have htenant := h.always .tenantId (by decide) (by decide)
    obtain ⟨family, tenantId, registry, encryption, config, outbox⟩ := s
    cases encryption with
    | none => exact htenant.map fun _ => Component.noKeyStorageStrategy
    | some e => exact htenant.map (Component.scopedKeyStorage e.2)
  | encryption =>
    exact (h.always .eventRegistry (by decide) (by decide)).bind fun registry =>
      (h.always .encryptionStrategy (by decide) (by decide)).bind fun strategy =>
        (h.always .encryptionKeyStorageStrategy (by decide) (by decide)).map
          (Component.encryption registry strategy)
  | serde =>
    exact (h.always .eventRegistry (by decide) (by decide)).bind fun registry =>
      (h.always .encryption (by decide) (by decide)).map (Component.serde registry)
  | storageStrategy =>
    have houtbox : Yields (Inv filterers) (s.Lacks .storageStrategy) Set.univ
        (a.get .inMemoryOutboxStorageStrategy) fun cells => s.outboxStorage cells := by
      have hasked := Yields.get fun hheld => h.ask .inMemoryOutboxStorageStrategy (by decide)
        fun hnone => by simp [hhas, container_outbox, hnone] at hheld
      refine hasked.congr fun cells => ?_
      rw [hhas, container_outbox, Settings.component, Settings.outboxStorage]
      cases s.outbox with
      | none => rfl
      | some outbox => cases hcell : cells (.outbox outbox.1) <;> simp [hcell]
    refine ((h.always .storage (by decide) (by decide)).bind fun storage =>
      (h.always .dispatcher (by decide) (by decide)).bind fun dispatcher =>
        houtbox.bind fun outbox => (h.always .tenantId (by decide) (by decide)).map
          (Component.inMemoryStorageStrategy storage dispatcher outbox)).congr fun cells => ?_
    change ((s.listeners cells).map _).bind _ = (s.listeners cells).bind _
    cases s.listeners cells with
    | none => rfl
    | some listeners =>
      change (s.outboxStorage cells).bind _ = (s.outboxStorage cells).map _
      cases s.outboxStorage cells <;> rfl
  | eventStore =>
    refine ((h.always .storageStrategy (by decide) (by decide)).bind fun strategy =>
      (h.always .serde (by decide) (by decide)).map (Component.eventStore strategy)).congr
        fun cells => ?_
    change (s.storageStrategy cells).bind _ = (s.storageStrategy cells).map _
    cases s.storageStrategy cells <;> rfl
  | outbox =>
    refine ((h.always .outboxStorageStrategy (by decide) (by decide)).bind fun strategy =>
      (h.always .serde (by decide) (by decide)).map (Component.outbox strategy)).congr
        fun cells => ?_
    change ((s.outboxStorage cells).map _).bind _ = (s.outboxStorage cells).map _
    cases s.outboxStorage cells <;> rfl
  | outboxStorageStrategy =>
    cases houtbox : s.outbox with
    | none =>
      have hnone : s.container .outboxStorageStrategy = some (value .noOutbox) := by
        simp only [Settings.container, houtbox, Option.elim]
        rfl
      have hyields : Yields (Inv filterers) (s.Lacks .outboxStorageStrategy) Set.univ
          (s.container.call a .outboxStorageStrategy) fun _ => some .noOutbox := by
        rw [Container.call, hnone]
        exact .pure _
      exact hyields.congr fun cells => by simp [Settings.component, Settings.outboxStorage, houtbox]
    | some outbox =>
      have hsome : s.container .outboxStorageStrategy =
          some fun c => c.getItem .inMemoryOutboxStorageStrategy := by
        simp only [Settings.container, houtbox, Option.elim]
        rfl
      have hyields : Yields (Inv filterers) (s.Lacks .outboxStorageStrategy) Set.univ
          (s.container.call a .outboxStorageStrategy)
          fun cells => s.component cells .inMemoryOutboxStorageStrategy := by
        rw [Container.call, hsome]
        exact h.ask .inMemoryOutboxStorageStrategy (by decide)
          fun hnone => by simp [houtbox] at hnone
      refine hyields.congr fun cells => ?_
      simp only [Settings.component, Settings.outboxStorage, houtbox]
      cases cells (.outbox outbox.1) <;> rfl
  | subscriptionStrategy =>
    exact (h.always .storage (by decide) (by decide)).map Component.inMemorySubscriptionStrategy
  | positionPhase =>
    exact (h.always .serde (by decide) (by decide)).bind fun serde =>
      (h.always .subscriptionStrategy (by decide) (by decide)).map
        (Component.subscriptionBuilder serde)
  | listeners => exact listeners_yields s.family a
  | dispatcher =>
    exact (h.always .serde (by decide) (by decide)).bind fun serde =>
      (h.always .listeners (by decide) (by decide)).map (Component.dispatcher serde)
  | inMemoryConfig =>
    obtain ⟨family, tenantId, registry, encryption, config, outbox⟩ := s
    cases config with
    | none => exact .raise ⟨rfl, .inr rfl⟩
    | some attempts => exact .pure _
  | storage => exact .pure _
  | outboxFiltererStrategy =>
    obtain ⟨family, tenantId, registry, encryption, config, outbox⟩ := s
    cases outbox with
    | none => exact .raise ⟨rfl, rfl, .inl rfl⟩
    | some outbox => exact .pure _
  | inMemoryOutboxStorageStrategy =>
    cases houtbox : s.outbox with
    | none =>
      obtain ⟨family, tenantId, registry, encryption, config, outbox⟩ := s
      cases houtbox
      exact .raise ⟨rfl, rfl, .inr rfl⟩
    | some outbox =>
      obtain ⟨call, filterer⟩ := outbox
      have hprovider : s.container .inMemoryOutboxStorageStrategy =
          withOutbox call filterer .empty .inMemoryOutboxStorageStrategy := by
        simp only [Settings.container, houtbox, Option.elim]
      have hyields : Yields (Inv filterers) (s.Lacks .inMemoryOutboxStorageStrategy) Set.univ
          (s.container.call a .inMemoryOutboxStorageStrategy)
          fun cells => cells (.outbox call) := by
        rw [Container.call, hprovider]
        exact h.outbox houtbox (hset _ houtbox) rfl
      refine hyields.congr fun cells => ?_
      simp only [Settings.component, Settings.outboxStorage, houtbox]
      cases cells (.outbox call) <;> rfl

end Providers

/-! ## Runs -/

section Runs
variable {G : Type}

/-- What has been set for all backends. -/
structure Plan (G : Type) where
  backends : List (Settings G) := []
  families : ℕ := 0
  /-- The filterers of the calls of `with_outbox`. -/
  filterers : List G := []

namespace Plan

def next (p : Plan G) : Action G → Plan G
  | .create =>
      { p with backends := p.backends ++ [{ family := p.families }], families := p.families + 1 }
  | .inTenantMode i tenantId => { p with
      backends := p.backends ++ (p.backends[i]?.map fun s => { s with tenantId }).toList }
  | .configure i config => { p with
      backends := p.backends.modify i fun s => { s with config := some (config.getD 3) } }
  | .withOutbox i filterer => { p with
      backends := p.backends.modify i fun s =>
        { s with outbox := some (p.filterers.length, filterer) }
      filterers := p.filterers ++ [filterer] }
  | .withEncryption i strategy keyStorage => { p with
      backends := p.backends.modify i fun s =>
        { s with encryption := some (strategy, keyStorage) } }
  | .withRegistry i registry => { p with
      backends := p.backends.modify i fun s => { s with registry := some registry } }
  | .getItem _ _ => p

end Plan

theorem map_modify {α β : Type} {f : α → β} {g : β → β} {h : α → α} (hfg : ∀ a, g (f a) = f (h a))
    (i : ℕ) (l : List α) : (l.map f).modify i g = (l.modify i h).map f := by
  apply List.ext_getElem?
  intro j
  rw [List.getElem?_modify, List.getElem?_map, List.getElem?_map, List.getElem?_modify]
  cases l[j]? with
  | none => rfl
  | some a => by_cases hij : i = j <;> simp [hij, hfg]

theorem of_mem_modify {α : Type} {f : α → α} {i : ℕ} {l : List α} {a : α} (h : a ∈ l.modify i f) :
    a ∈ l ∨ ∃ b ∈ l, a = f b := by
  obtain ⟨j, hj⟩ := List.mem_iff_getElem?.1 h
  rw [List.getElem?_modify] at hj
  obtain ⟨b, hb, hab⟩ := Option.map_eq_some_iff.1 hj
  have hmem : b ∈ l := List.mem_of_getElem? hb
  by_cases hij : i = j
  · rw [if_pos hij] at hab
    exact .inr ⟨b, hmem, hab.symm⟩
  · rw [if_neg hij] at hab
    exact .inl (hab ▸ hmem)

theorem Inv.mono {filterers : List G} {s : Store Cell (Component G)} (h : Inv filterers s)
    (filterer : G) : Inv (filterers ++ [filterer]) s where
  fits cell o hcell := by
    have hfits := h.fits cell o hcell
    cases cell with
    | listeners family => exact hfits
    | outbox call =>
      obtain ⟨number, g, attempts, hcall, ho⟩ := hfits
      have hlt : call < filterers.length := (List.getElem?_eq_some_iff.1 hcall).1
      exact ⟨number, g, attempts, (List.getElem?_append_left hlt).trans hcall, ho⟩
  numbered := h.numbered
  distinct := h.distinct

/-- The backends have the providers that were planned. -/
structure Stands (p : Plan G) (w : World G) : Prop where
  backends : w.backends = p.backends.map Settings.container
  families : w.families = p.families
  outboxes : w.outboxes = p.filterers.length
  called : ∀ s ∈ p.backends, ∀ outbox ∈ s.outbox, p.filterers[outbox.1]? = some outbox.2
  inv : Inv p.filterers w.store

theorem stands_empty : Stands ({} : Plan G) {} where
  backends := rfl
  families := rfl
  outboxes := rfl
  called := by simp
  inv := ⟨fun _ _ h => (by cases h), fun _ _ h => (by cases h), fun _ _ _ h => (by cases h)⟩

section Providers
variable (s : Settings G)

theorem container_create (family : ℕ) :
    inMemoryBackend family = Settings.container { family := family : Settings G } := by
  funext key
  cases key <;> rfl

theorem container_inTenantMode (tenantId : TenantId) :
    inTenantMode tenantId s.container = Settings.container { s with tenantId } := by
  funext key
  cases key <;> rfl

theorem container_configure (config : Option ℕ) :
    configure config s.container =
      Settings.container { s with config := some (config.getD 3) } := by
  funext key
  cases key <;> rfl

theorem container_withOutbox (call : ℕ) (filterer : G) :
    withOutbox call filterer s.container =
      Settings.container { s with outbox := some (call, filterer) } := by
  funext key
  cases key <;> rfl

theorem container_withEncryption (strategy keyStorage : G) :
    withEncryption strategy keyStorage s.container =
      Settings.container { s with encryption := some (strategy, keyStorage) } := by
  funext key
  cases key <;> rfl

theorem container_withRegistry (registry : G) :
    withRegistry registry s.container =
      Settings.container { s with registry := some registry } := by
  funext key
  cases key <;> rfl

end Providers

/-- What a backend has answered, as its settings say, with the singletons that there are. -/
def Settings.Answers (s : Settings G) (cells : Cell → Option (Component G)) (key : Key) :
    Except (Failure Key WiringError) (Component G) → Prop
  | .ok o => s.component cells key = some o
  | .error e => s.Lacks key e

section Steps
variable {limit : ℕ} {p : Plan G} {w : World G}

theorem rank_lt (hlimit : 7 ≤ limit) (key : Key) : rank key < limit := by
  have hrank : rank key ≤ 6 := by cases key <;> decide
  omega

theorem access_yields (hlimit : 7 ≤ limit) {filterers : List G} {s : Settings G}
    (hcalled : ∀ outbox ∈ s.outbox, filterers[outbox.1]? = some outbox.2) (key : Key) :
    Yields (Inv filterers) (s.Lacks key) (touches key) ((s.container.access limit).getItem key)
      fun cells => s.component cells key :=
  Container.access_yields rank
    (fun _ _ hhas hlower => container_yields hcalled hhas hlower) limit key (rank_lt hlimit key)

/-- What asking a backend does to the store, and what is answered. -/
theorem Stands.getItem (h : Stands p w) (hlimit : 7 ≤ limit) {i : ℕ} {s : Settings G}
    (hs : p.backends[i]? = some s) (key : Key) :
    let r := (s.container.access limit).getItem key w.store
    Inv p.filterers r.2 ∧ w.store.Grows r.2 ∧ s.Answers r.2.cells key r.1 := by
  have hyields := access_yields hlimit (h.called s (List.mem_of_getElem? hs)) key
  have hran := hyields.safe w.store h.inv
  refine ⟨hran.inv, hran.grows, ?_⟩
  cases hr : ((s.container.access limit).getItem key w.store).1 with
  | ok o => exact hyields.ok w.store h.inv o hr
  | error e => exact hran.error e hr

theorem step_getItem (h : Stands p w) (i : ℕ) (key : Key) :
    step limit w (.getItem i key) =
      match p.backends[i]? with
      | none => (none, w)
      | some s =>
          let r := (s.container.access limit).getItem key w.store
          (some r.1, { w with store := r.2 }) := by
  simp only [step, h.backends, List.getElem?_map]
  cases p.backends[i]? <;> rfl

/-- Changed settings of one backend. -/
theorem Stands.modify (h : Stands p w) {i : ℕ} {f : Backend G → Backend G}
    {change : Settings G → Settings G} (hf : ∀ s, f s.container = (change s).container)
    (houtbox : ∀ s, (change s).outbox = s.outbox) :
    Stands { p with backends := p.backends.modify i change }
      { w with backends := w.backends.modify i f } where
  backends := by
    rw [h.backends]
    exact map_modify hf i p.backends
  families := h.families
  outboxes := h.outboxes
  called s hs outbox ho := by
    obtain hs | ⟨before, hbefore, rfl⟩ := of_mem_modify hs
    · exact h.called s hs outbox ho
    · rw [houtbox] at ho
      exact h.called before hbefore outbox ho
  inv := h.inv

theorem Stands.step (h : Stands p w) (hlimit : 7 ≤ limit) (a : Action G) :
    Stands (p.next a) (step limit w a).2 ∧ w.store.Grows (step limit w a).2.store := by
  cases a with
  | create =>
    refine ⟨⟨?_, congrArg (· + 1) h.families, h.outboxes, fun s hs outbox ho => ?_, h.inv⟩, .refl _⟩
    · change w.backends ++ _ = List.map _ (p.backends ++ _)
      rw [h.backends, h.families, container_create, List.map_append]
      rfl
    · obtain hs | hs := List.mem_append.1 hs
      · exact h.called s hs outbox ho
      · rw [List.mem_singleton.1 hs] at ho
        cases ho
  | inTenantMode i tenantId =>
    refine ⟨⟨?_, h.families, h.outboxes, fun s hs outbox ho => ?_, h.inv⟩, .refl _⟩
    · change w.backends ++ _ = List.map _ (p.backends ++ _)
      rw [h.backends, List.map_append, List.getElem?_map]
      cases p.backends[i]? with
      | none => rfl
      | some s => exact congrArg (_ ++ [·]) (container_inTenantMode s tenantId)
    · obtain hs | hs := List.mem_append.1 hs
      · exact h.called s hs outbox ho
      · obtain ⟨s, hsome, rfl⟩ := Option.map_eq_some_iff.1 (Option.mem_toList.1 hs)
        exact h.called s (List.mem_of_getElem? hsome) outbox ho
  | configure i config => exact ⟨h.modify (container_configure · config) fun _ => rfl, .refl _⟩
  | withEncryption i strategy keyStorage =>
    exact ⟨h.modify (container_withEncryption · strategy keyStorage) fun _ => rfl, .refl _⟩
  | withRegistry i registry =>
    exact ⟨h.modify (container_withRegistry · registry) fun _ => rfl, .refl _⟩
  | withOutbox i filterer =>
    refine ⟨⟨?_, h.families, ?_, fun s hs outbox ho => ?_, h.inv.mono filterer⟩, .refl _⟩
    · change w.backends.modify _ _ = _
      rw [h.backends, h.outboxes]
      exact map_modify (container_withOutbox · p.filterers.length filterer) i p.backends
    · change w.outboxes + 1 = (p.filterers ++ [filterer]).length
      rw [h.outboxes, List.length_append, List.length_singleton]
    · obtain hs | ⟨before, -, rfl⟩ := of_mem_modify hs
      · have hheld := h.called s hs outbox ho
        exact (List.getElem?_append_left (List.getElem?_eq_some_iff.1 hheld).1).trans hheld
      · cases ho
        exact List.getElem?_concat_length
  | getItem i key =>
    rw [step_getItem h]
    cases hs : p.backends[i]? with
    | none => exact ⟨h, .refl _⟩
    | some s =>
      obtain ⟨hinv, hgrows, -⟩ := h.getItem hlimit hs key
      exact ⟨{ h with inv := hinv }, hgrows⟩

end Steps

abbrev History (G : Type) :=
  List (Action G × Option (Except (Failure Key WiringError) (Component G)))

/-- What has been set when the actions were taken. -/
def planned (past : History G) : Plan G := past.foldl (fun p x => p.next x.1) {}

/-- At some time a backend with these settings was asked for the key, and gave the answer. -/
def Given (past : History G) (s : Settings G) (key : Key)
    (answer : Except (Failure Key WiringError) (Component G)) : Prop :=
  ∃ before after i, past = before ++ (.getItem i key, some answer) :: after ∧
    (planned before).backends[i]? = some s

section History
variable {limit : ℕ} {past : History G} {w : World G} {s s' : Settings G} {key : Key}
  {answer : Except (Failure Key WiringError) (Component G)}

theorem given_concat {a : Action G} {r : Option (Except (Failure Key WiringError) (Component G))}
    (h : Given (past ++ [(a, r)]) s key answer) : Given past s key answer ∨
      ∃ i, a = .getItem i key ∧ r = some answer ∧ (planned past).backends[i]? = some s := by
  obtain ⟨before, after, i, hpast, hs⟩ := h
  rcases List.eq_nil_or_concat after with rfl | ⟨after, x, rfl⟩
  · obtain ⟨rfl, hlast⟩ := List.append_inj' hpast rfl
    cases hlast
    exact .inr ⟨i, rfl, rfl, hs⟩
  · rw [List.concat_eq_append, ← List.cons_append, ← List.append_assoc] at hpast
    exact .inl ⟨before, after, i, (List.append_inj' hpast rfl).1, hs⟩

/-- What was answered at any time is known from the singletons that there are now. -/
structure Told (past : History G) (w : World G) : Prop where
  stands : Stands (planned past) w
  called : ∀ s key answer, Given past s key answer →
    ∀ outbox ∈ s.outbox, (planned past).filterers[outbox.1]? = some outbox.2
  answers : ∀ s key answer, Given past s key answer → s.Answers w.store.cells key answer

theorem Plan.next_filterers {p : Plan G} {call : ℕ} {filterer : G}
    (h : p.filterers[call]? = some filterer) (a : Action G) :
    (p.next a).filterers[call]? = some filterer := by
  cases a with
  | withOutbox i filterer =>
    exact (List.getElem?_append_left (List.getElem?_eq_some_iff.1 h).1).trans h
  | _ => exact h

theorem planned_concat (past : History G) (a : Action G)
    (r : Option (Except (Failure Key WiringError) (Component G))) :
    planned (past ++ [(a, r)]) = (planned past).next a := by
  rw [planned, List.foldl_append]
  rfl

theorem Told.step (h : Told past w) (hlimit : 7 ≤ limit) (a : Action G) :
    Told (past ++ [(a, (step limit w a).1)]) (step limit w a).2 := by
  obtain ⟨hstands, hgrows⟩ := h.stands.step hlimit a
  have hcalled : ∀ s key answer,
      Given (past ++ [(a, (BackendWiring.step limit w a).1)]) s key answer →
      ∀ outbox ∈ s.outbox, ((planned past).next a).filterers[outbox.1]? = some outbox.2 := by
    intro s key answer hgiven outbox ho
    refine Plan.next_filterers ?_ a
    obtain hpast | ⟨i, -, -, hs⟩ := given_concat hgiven
    · exact h.called s key answer hpast outbox ho
    · exact h.stands.called s (List.mem_of_getElem? hs) outbox ho
  refine ⟨planned_concat past a _ ▸ hstands, planned_concat past a _ ▸ hcalled, ?_⟩
  intro s key answer hgiven
  obtain hpast | ⟨i, rfl, hr, hs⟩ := given_concat hgiven
  · have hthen := h.answers s key answer hpast
    cases answer with
    | ok o =>
      exact (access_yields hlimit (h.called s key _ hpast) key).stable _ _ hgrows.cells o hthen
    | error e => exact hthen
  · obtain ⟨-, -, hanswers⟩ := h.stands.getItem hlimit hs key
    rw [step_getItem h.stands, hs] at hr ⊢
    cases hr
    exact hanswers

theorem told_run (hlimit : 7 ≤ limit) (actions : List (Action G)) :
    Told (actions.zip (run (step limit) {} actions).1) (run (step limit) {} actions).2 := by
  refine run_history (fun past w a h _ => h.step hlimit a) ⟨stands_empty, ?_, ?_⟩ actions
    (meets_of_forall (fun _ _ => trivial) _ _)
  · rintro s key answer ⟨before, after, i, hpast, -⟩
    simp at hpast
  · rintro s key answer ⟨before, after, i, hpast, -⟩
    simp at hpast

end History

/-- The call of `with_outbox` for a backend. -/
def Settings.call (s : Settings G) : Option ℕ := s.outbox.map Prod.fst

section Sharing
variable {filterers : List G} {store : Store Cell (Component G)} {s s' : Settings G}
  {outbox outbox' : Option (Component G)}

/-- The outbox storage of a call is made with its filterer. -/
theorem Inv.outboxStorage (h : Inv filterers store)
    (hcalled : ∀ outbox ∈ s.outbox, filterers[outbox.1]? = some outbox.2)
    (houtbox : s.outboxStorage store.cells = some outbox) :
    ∃ number attempts,
      outbox = s.outbox.map fun o => .inMemoryOutbox number (.given o.2) attempts := by
  unfold Settings.outboxStorage at houtbox
  cases hset : s.outbox with
  | none =>
    rw [hset] at houtbox
    cases houtbox
    exact ⟨0, 0, rfl⟩
  | some o =>
    rw [hset] at houtbox
    obtain ⟨object, hcell, rfl⟩ := Option.map_eq_some_iff.1 houtbox
    obtain ⟨number, filterer, attempts, hcall, rfl⟩ := h.fits _ _ hcell
    rw [hcalled o hset] at hcall
    cases hcall
    exact ⟨number, attempts, rfl⟩

/-- Two backends have the same outbox storage if and only if they have it from the same call. -/
theorem Inv.same_outbox_iff (h : Inv filterers store)
    (houtbox : s.outboxStorage store.cells = some outbox)
    (houtbox' : s'.outboxStorage store.cells = some outbox') :
    outbox'.getD .noOutbox = outbox.getD .noOutbox ↔ s'.call = s.call := by
  unfold Settings.outboxStorage at houtbox houtbox'
  unfold Settings.call
  have hmade : ∀ call object, store.cells (.outbox call) = some object → object ≠ .noOutbox := by
    rintro call _ hcell rfl
    obtain ⟨number, filterer, attempts, -, ho⟩ := h.fits _ _ hcell
    cases ho
  cases hset : s.outbox with
  | none =>
    rw [hset] at houtbox
    cases houtbox
    cases hset' : s'.outbox with
    | none =>
      rw [hset'] at houtbox'
      cases houtbox'
      exact iff_of_true rfl rfl
    | some o' =>
      rw [hset'] at houtbox'
      obtain ⟨object', hcell', rfl⟩ := Option.map_eq_some_iff.1 houtbox'
      exact iff_of_false (hmade _ _ hcell') (by rintro ⟨⟩)
  | some o =>
    rw [hset] at houtbox
    obtain ⟨object, hcell, rfl⟩ := Option.map_eq_some_iff.1 houtbox
    cases hset' : s'.outbox with
    | none =>
      rw [hset'] at houtbox'
      cases houtbox'
      exact iff_of_false (hmade _ _ hcell).symm (by rintro ⟨⟩)
    | some o' =>
      rw [hset'] at houtbox'
      obtain ⟨object', hcell', rfl⟩ := Option.map_eq_some_iff.1 houtbox'
      constructor
      · rintro (rfl : object' = object)
        exact congrArg some (Cell.outbox.inj (h.distinct _ _ _ hcell' hcell))
      · intro hcall
        rw [Option.map_some, Option.map_some, Option.some_inj] at hcall
        rw [hcall, hcell] at hcell'
        exact (Option.some.inj hcell').symm

end Sharing

/-- Whatever is asked of backends in whatever order, an event store is made for the tenant of its
backend, over the storage of the backend that it was copied from. It has the listeners that
another backend gives at any other time, if and only if both were copied from the same backend, and
it puts records into the storage that the outbox of another backend reads, if and only if both have
it from the same call of `with_outbox`, whose filter it applies. Nothing is raised, but for want of
a configuration of this outbox. -/
theorem event_stores_share {limit : ℕ} (hlimit : 7 ≤ limit) (actions : List (Action G)) :
    let past := actions.zip (run (step limit) {} actions).1
    (∀ s key e, Given past s key (.error e) → s.Lacks key e) ∧
    ∀ s eventStore, Given past s .eventStore (.ok eventStore) → ∃ listeners outbox,
      eventStore = .eventStore
        (.inMemoryStorageStrategy (.storage s.family) (.dispatcher s.serde listeners) outbox
          (.tenantId s.tenantId)) s.serde ∧
      (∀ s' l, Given past s' .listeners (.ok l) → (l = listeners ↔ s'.family = s.family)) ∧
      (∀ s' o, Given past s' .outbox (.ok o) → ∃ strategy, o = .outbox strategy s'.serde ∧
        (strategy = outbox.getD .noOutbox ↔ s'.call = s.call)) ∧
      ∃ number attempts,
        outbox = s.outbox.map fun o => .inMemoryOutbox number (.given o.2) attempts := by
  intro past
  have htold := told_run hlimit actions
  have hinv := htold.stands.inv
  refine ⟨fun s key e hgiven => htold.answers s key _ hgiven, fun s eventStore hgiven => ?_⟩
  obtain ⟨strategy, hstrategy, rfl⟩ := Option.map_eq_some_iff.1 (htold.answers s _ _ hgiven)
  obtain ⟨listeners, hlisteners, hstrategy⟩ := Option.bind_eq_some_iff.1 hstrategy
  obtain ⟨outbox, houtbox, rfl⟩ := Option.map_eq_some_iff.1 hstrategy
  refine ⟨listeners, outbox, rfl, fun s' l hl => ?_, fun s' o ho => ?_, ?_⟩
  · have hl : s'.listeners _ = some l := htold.answers s' _ _ hl
    constructor
    · rintro rfl
      exact Cell.listeners.inj (hinv.distinct _ _ _ hl hlisteners)
    · intro hfamily
      rw [Settings.listeners, hfamily] at hl
      exact Option.some.inj (hl.symm.trans hlisteners)
  · obtain ⟨outbox', houtbox', rfl⟩ := Option.map_eq_some_iff.1 (htold.answers s' _ _ ho)
    exact ⟨_, rfl, hinv.same_outbox_iff houtbox houtbox'⟩
  · exact hinv.outboxStorage (htold.called s _ _ hgiven) houtbox

end Runs

section Example

/-- A backend with an outbox, and its copy for a tenant, which is the first to need the outbox. -/
def twoBackends : List (Action Unit) :=
  [.create, .configure 0 none, .withOutbox 0 (), .inTenantMode 0 "first", .getItem 1 .eventStore,
    .getItem 0 .outbox]

def noTenant : Settings Unit := { family := 0, config := some 3, outbox := some (0, ()) }

def firstTenant : Settings Unit := { noTenant with tenantId := "first" }

theorem event_stores_share_first :
    let past := twoBackends.zip (run (step 7) {} twoBackends).1
    ∃ eventStore strategy listeners outbox,
      Given past firstTenant .eventStore (.ok eventStore) ∧
      Given past noTenant .outbox (.ok (.outbox strategy noTenant.serde)) ∧
      eventStore = .eventStore
        (.inMemoryStorageStrategy (.storage 0) (.dispatcher firstTenant.serde listeners) outbox
          (.tenantId "first")) firstTenant.serde ∧
      strategy = outbox.getD .noOutbox := by
  intro past
  have hstore : Given past firstTenant .eventStore (.ok _) :=
    ⟨past.take 4, past.drop 5, 1, rfl, rfl⟩
  have houtbox : Given past noTenant .outbox (.ok _) := ⟨past.take 5, [], 0, rfl, rfl⟩
  obtain ⟨listeners, outbox, hmade, -, hshared, -⟩ :=
    (event_stores_share le_rfl twoBackends).2 firstTenant _ hstore
  obtain ⟨strategy, ho, hsame⟩ := hshared noTenant _ houtbox
  exact ⟨_, strategy, listeners, outbox, hstore, ho ▸ houtbox, hmade, hsame.2 rfl⟩

end Example

end EventSourcery.BackendWiring
