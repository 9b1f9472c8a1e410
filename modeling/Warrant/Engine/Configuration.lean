import Warrant.Cache.Basic
import Warrant.Engine.Basic
import Warrant.Settings

/-!
# Engines from their configuration
-/

namespace Warrant

namespace Engine

/-- How an engine is configured. -/
structure Configuration where
  served : Option String
  cacheMaxEntries : Int
  cacheLifetime : Decimal.Numeral
  superusers : List String
  adminGroup : Option String
  looksUpGroups : Bool

/-- What holds where nothing else is said: all instances are served, nobody passes without a check,
and up to 10000 decisions are cached for five minutes. -/
def Configuration.default : Configuration :=
  { served := none
    cacheMaxEntries := 10000
    cacheLifetime := .real 300
    superusers := []
    adminGroup := none
    looksUpGroups := false }

/-- The engine of a configuration, and the limits of its cache. -/
def configure? (c : Configuration) : Except Malformed (Engine × Cache.Limits Float) := do
  let limits ← Cache.Limits.make? c.cacheMaxEntries c.cacheLifetime.toFloat c.cacheLifetime.text
  let engine : Engine :=
    { resolver := ⟨c.served⟩
      superusers := c.superusers
      adminGroup := c.adminGroup
      looksUpGroups := c.looksUpGroups
      caches := limits.enabled }
  return (engine, limits)

end Engine

/-- The configuration that settings stand for. -/
def Settings.Values.configuration (v : Settings.Values) (looksUpGroups : Bool) :
    Engine.Configuration :=
  { served := some (v .instanceName)
    cacheMaxEntries := v .cacheMaxEntries
    cacheLifetime := .real (v .cacheLifetime)
    superusers := Settings.namesIn (v .superusers)
    adminGroup := v .adminGroup
    looksUpGroups }

def Settings.configuration (s : Settings) (looksUpGroups : Bool) : Engine.Configuration :=
  s.values.configuration looksUpGroups

end Warrant
