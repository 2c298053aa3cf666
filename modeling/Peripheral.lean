import Peripheral.Aggregator.Run
import Peripheral.Backlog.Lemmas
import Peripheral.Firmware.Device
import Peripheral.Firmware.Rest
import Peripheral.HoldTable.Lemmas
import Peripheral.Power.Timed
import Peripheral.Report.Wire
import Peripheral.Proofs.History
import Peripheral.Proofs.Moves
import Peripheral.Proofs.Levels
import Peripheral.Proofs.Batches
import Peripheral.Proofs.Purge
import Peripheral.Proofs.ArrivalTimes
import Peripheral.Proofs.Bindings
import Peripheral.Proofs.HostView
import Peripheral.Proofs.Pairing
import Peripheral.Proofs.StuckKeys
import Peripheral.Proofs.ArrivalOrder
import Peripheral.Proofs.TableUpdates
import Peripheral.Proofs.WordArithmetic
import Peripheral.Proofs.FaultFree
import Peripheral.Proofs.Renewal
import Peripheral.Proofs.MotionCarried
import Peripheral.Proofs.Traffic
import Peripheral.Proofs.Pacing
import Peripheral.Proofs.Course
import Peripheral.Proofs.Sessions
import Peripheral.Proofs.Running
import Peripheral.Proofs.Awaited
import Peripheral.Proofs.Connection
import Peripheral.Proofs.Handshake
import Peripheral.Proofs.Settling
import Peripheral.Proofs.ClockShift
import Peripheral.Proofs.SharedKeys
import Peripheral.Proofs.PurgeExtent
import Peripheral.Proofs.Storing
import Peripheral.Proofs.Ageing
import Peripheral.Proofs.LevelMap
import Peripheral.Proofs.Bursts
import Peripheral.Proofs.StaleInput
import Peripheral.Proofs.Refusals
import Peripheral.Proofs.PowerSaving
import Peripheral.Proofs.ReadBack
import Peripheral.Proofs.DeclaredRange
import Peripheral.Proofs.UpToDate
import Peripheral.Proofs.ButtonReading
import Peripheral.Proofs.ButtonEvents
import Peripheral.Proofs.SettledButton
import Peripheral.Firmware.Outcomes
