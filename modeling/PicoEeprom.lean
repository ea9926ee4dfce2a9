import PicoEeprom.Layout
import PicoEeprom.Memory
import PicoEeprom.Flash
import PicoEeprom.Engine
import PicoEeprom.Api
import PicoEeprom.Cache
import PicoEeprom.Refinement
import PicoEeprom.Codec
import PicoEeprom.Replay
import PicoEeprom.Boot
import PicoEeprom.Compaction
import PicoEeprom.Access
import PicoEeprom.Invariant
import PicoEeprom.Transitions
import PicoEeprom.Status
import PicoEeprom.Crash
import PicoEeprom.Durability
import PicoEeprom.Compacting
import PicoEeprom.Retry
import PicoEeprom.LogGrowth
import PicoEeprom.RunCrash
import PicoEeprom.Locking
import PicoEeprom.Region
import PicoEeprom.Wear
import PicoEeprom.NorDiscipline
