import SabiRuby.HashTable.Raising
import SabiRuby.HashTable.ReentrantRuns
import SabiRuby.SetTable.Runs
import SabiRuby.Integer.Complements
import SabiRuby.Execution.Slices
import SabiRuby.Instances.Frozen
import SabiRuby.Fibers.Values
import SabiRuby.Serde.Conversion
import SabiRuby.Checkpoint.PrefixFree
import SabiRuby.Sprintf.Total
import SabiRuby.Tasks.Joins
import SabiRuby.Tasks.LostWakeups
import SabiRuby.Tasks.Indexes
import SabiRuby.Tasks.Sleeps
import SabiRuby.KeyCodes.Agreement
import SabiRuby.Integer.Rereading
import SabiRuby.Collector.Collection
import SabiRuby.Arrays.Sorting
import SabiRuby.Arrays.Enumeration
import SabiRuby.Blocks.Break
import SabiRuby.Modules.Ancestry
import SabiRuby.Nesting.Flatten
import SabiRuby.Times.Exactness
import SabiRuby.Elements.Exactness
import SabiRuby.Randoms.Exactness
import SabiRuby.Integer.Rounding
import SabiRuby.Integer.Rationals
import SabiRuby.Strings.Exactness
import SabiRuby.Checkpoint.RemainingWaits
import SabiRuby.Packing.RoundTrip
import SabiRuby.Arrays.ArrayData
import SabiRuby.Execution.Boundaries
import SabiRuby.Strings.Transliteration
import SabiRuby.Strings.Fields
import SabiRuby.Binaries.Sections
import SabiRuby.Substitutions.Agreement
import SabiRuby.Hosts.HostStore
import SabiRuby.Regexps.Agreement
