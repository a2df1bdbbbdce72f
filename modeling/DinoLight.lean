import DinoLight.Lib.Clocked
import DinoLight.Lib.Vectors
import DinoLight.BlockToPixel
import DinoLight.Accumulators
import DinoLight.Blanking
import DinoLight.BlockAverages
import DinoLight.ClockCrossing
import DinoLight.CustomUpdates
import DinoLight.SerialLink
import DinoLight.ChannelOrder
import DinoLight.CommandRanges
import DinoLight.Handshake
import DinoLight.Isolation
import DinoLight.LineTiming
import DinoLight.PeriodicReports
import DinoLight.Refresh
import DinoLight.RemoveBadThings
import DinoLight.VideoAverager
import DinoLight.BitEncoder
import DinoLight.BlockStarts
import DinoLight.ByteFilters
import DinoLight.EdgeCoverage
import DinoLight.Expansion
import DinoLight.PulseCrossing
import DinoLight.ResetMemory
import DinoLight.VsyncPulses
import DinoLight.DvidIn
import DinoLight.DvidLock
import DinoLight.VideoPath
import DinoLight.BaudTolerance
import DinoLight.Dinolight
import DinoLight.HostCalls
import DinoLight.ScreenPath
